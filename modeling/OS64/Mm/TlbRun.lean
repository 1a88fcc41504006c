import OS64.Lib.Run
import OS64.Mm.TlbMount

/-!
# Stale translations

`mount_page_do` and `umount_page` write the entry of a page and drop the window from the TLB, never
the page. Where the page was mapped the TLB may go on using the old entry: after `umount_page` the
page is still there, after a remap it is still the old frame (`tlb_stale`).

The other way round: an entry that was not mapped cannot be in the TLB. `tlb_right_run` says that the
TLB stays right, over every run of mounts, unmounts, allocations and accesses, as long as nothing
that is mapped comes to be mapped otherwise and no store hits a table.
-/

namespace OS64.Mm

open OS64.Lib Prog

/-! ## `umount_page` -/

/-- Nothing that is mapped is taken away. -/
def umountKeeps (s : PageState) (v : BitVec 64) : Prop :=
  pagePath v = windowPath ∨ s.translate s.root v = none

section Umount

variable {s : PageState} {v : BitVec 64} {P is : List (BitVec 9)} {i : BitVec 9} {table : BitVec 64}

theorem umountKeeps.leaf (h : umountKeeps s v) (e : Pte) : leafKeeps s v e := h.imp_right Or.inl

theorem umountKeeps.closed (h : TlbTables s) (hk : umountKeeps s v) : umountKeeps s.closed v := by
  by_cases hwin : pagePath v = windowPath
  · exact Or.inl hwin
  · unfold umountKeeps
    rw [closed_root, h.tree.translate_closed hwin]
    exact hk

/-- A level of `umount_page` writes nothing. -/
theorem tlbSafe_umountLevel (h : TlbTables s) (table : BitVec 64) (i : BitVec 9) :
    TlbSafe (umountLevel table i) s := by
  have hmounted := (h.mounted table).toTables
  unfold umountLevel
  refine tlbSafe_bind (tlbSafe_mountPageT h.toTables table) ?_
  rw [run_mountPageT]
  exact tlbSafe_bind (tlbSafe_readEntry hmounted (mounted_open table) i)
    (tlbSafe_bind (tlbSafe_umountPageT hmounted) (tlbSafe_pure _))

/-- The end of `umount_page`. -/
theorem tlbSafe_umountLast (h : TlbTables s) (hP : P.length = 3)
    (hf : s.reach s.root P = some (frameOf table)) (hv : pagePath v = P ++ [i])
    (hk : umountKeeps s v) :
    TlbSafe (umountWalk table [i]) s ∧ TlbTables ((umountWalk table [i]).run pageExec s).2 := by
  have hmounted := h.mounted table
  have hopen := mounted_open (s := s) table
  have hreach := (mounted_reach h table hP.le).trans hf
  have hwindow := window_mounted s table
  have hput := fun e => hmounted.put hP hreach i e
  constructor
  · refine tlbSafe_bind (tlbSafe_mountPageT h.toTables table) ?_
    rw [run_mountPageT]
    have hread := tlbSafe_readEntry hmounted.toTables hopen i
    refine tlbSafe_bind hread (tlbSafe_bind hread ?_)
    refine tlbSafe_bind (p := do let _ ← perform (.writeEntry i _); umountPageT)
      (tlbSafe_writeLast hmounted.toTables hopen ?_ ?_) (tlbSafe_pure _)
    · rw [hwindow]
      exact (hput _).toTables
    · rw [hwindow]
      exact walks_put_leaf hmounted.toTables hP hreach hv ((hk.leaf _).mounted h table)
  · rw [umountWalk, run_bind, run_mountPageT]
    have hend :=
      (hput ((s.mounted table).mem (s.mounted table).window i &&& 0xFFFFFFFFFFFFFFFE#64)).setSlot 0
    rw [← hwindow] at hend
    exact hend

theorem tlbSafe_umountWalk (h : TlbTables s) (hlen : P.length + is.length = 3)
    (hf : s.reach s.root P = some (frameOf table)) (hv : pagePath v = P ++ is ++ [i])
    (hk : umountKeeps s v) :
    TlbSafe (umountWalk table (is ++ [i])) s ∧
      TlbTables ((umountWalk table (is ++ [i])).run pageExec s).2 := by
  induction is generalizing s P table with
  | nil => exact tlbSafe_umountLast h (by simpa using hlen) hf (by simpa using hv) hk
  | cons k is ih =>
    obtain ⟨j, r, hrest⟩ := List.exists_cons_of_ne_nil (List.concat_ne_nil i is)
    rw [List.length_cons] at hlen
    have hne : frameOf table ≠ s.kptFrame := h.tree.upper_ne (P := P) (by omega) hf
    have hnext : TlbSafe (if s.mem (frameOf table) k = 0 then pure 0
          else umountWalk (s.mem (frameOf table) k).base (is ++ [i])) s.closed ∧
        TlbTables ((if s.mem (frameOf table) k = 0 then pure 0
          else umountWalk (s.mem (frameOf table) k).base (is ++ [i])).run pageExec s.closed).2 := by
      by_cases h0 : s.mem (frameOf table) k = 0
      · rw [if_pos h0]
        exact ⟨tlbSafe_pure _, h.closed⟩
      · rw [if_neg h0]
        refine ih (P := P ++ [k]) h.closed (by simp; omega) ?_ (by simpa using hv) (hk.closed h)
        refine (h.tree.reach_closed (by simp; omega)).trans ?_
        rw [reach_concat, hf, Option.bind_some, Pte.leads, if_neg h0, frameOf_base]
    have hlevel := tlbSafe_umountLevel h table k
    have hrun := run_umountLevel (i := k) (Or.inl hne)
    rw [hrest] at hnext
    rw [List.cons_append, hrest, umountWalk]
    refine ⟨tlbSafe_bind hlevel ?_, ?_⟩
    · rw [hrun]
      exact hnext.1
    · rw [run_bind, hrun]
      exact hnext.2

/-- `umount_page` is safe where it takes nothing away. -/
theorem tlbSafe_umountPage (h : TlbTables s) (hk : umountKeeps s v) :
    TlbSafe (umountPage v) s ∧ TlbTables ((umountPage v).run pageExec s).2 := by
  have hlen : ([] : List (BitVec 9)).length + (tablePath v).length = 3 := rfl
  have hroot : s.reach s.root [] = some (frameOf s.pml4) := rfl
  obtain ⟨hsafe, htables⟩ := tlbSafe_umountWalk h hlen hroot (pagePath_eq v) hk
  exact ⟨tlbSafe_bind (f := fun t => umountWalk t (pagePath v))
    (tlbSafe_quiet (AllOps.perform trivial)) hsafe, htables⟩

end Umount

/-! ## `alloc_pages` -/

/-- Each page that `alloc_pages` comes to is one it may map: `n` pages to go, at offset `i`. -/
def allocKeeps (addr : BitVec 64) : Nat → BitVec 64 → PageState → Prop
  | 0, _, _ => True
  | n + 1, i, s =>
    mountKeeps s.alloc (addr + i) (pteOf s.allocAddr 3#12) ∧
      allocKeeps addr n (i + 0x1000#64)
        ((mountPageDo (addr + i) (pteOf s.allocAddr 3#12)).run pageExec s.alloc).2

theorem quiet_createPage : AllOps quiet createPage := (AllOps.perform trivial).bind fun _ => .pure _

theorem tlbSafe_allocLoop {s : PageState} {addr i : BitVec 64} {n : Nat} (h : TlbTables s)
    (hk : allocKeeps addr n i s) : TlbSafe (allocLoop createPage addr n i) s ∧
      TlbTables ((allocLoop createPage addr n i).run pageExec s).2 := by
  induction n generalizing i s with
  | zero => exact ⟨tlbSafe_pure _, h⟩
  | succ n ih =>
    obtain ⟨hsafe, htables⟩ := tlbSafe_mountPageDo h.alloc hk.1
    obtain ⟨hrest, hend⟩ := ih htables hk.2
    rw [allocLoop]
    refine ⟨tlbSafe_bind (tlbSafe_quiet quiet_createPage) (tlbSafe_bind hsafe hrest), ?_⟩
    rw [run_bind, run_bind]
    exact hend

/-! ## Runs -/

/-- What a run is made of. -/
inductive TlbCall
  | mount (phys log : BitVec 64)
  | umount (log : BitVec 64)
  | alloc (addr size : BitVec 64)
  | load (v : BitVec 64)
  | store (v : BitVec 64) (b : BitVec 8)

/-- What it may come to. An access that is not mapped does not take place. -/
def TlbStep : TlbCall → TlbState → TlbState → Prop
  | .mount phys log, x, y => TlbRuns (mountPage phys log) x () y
  | .umount log, x, y => ∃ ret, TlbRuns (umountPage log) x ret y
  | .alloc addr size, x, y => TlbRuns (allocPages addr size) x () y
  | .load v, x, y => TlbFills x y ∧ (y.reaches v).isSome
  | .store v b, x, y =>
    ∃ z f, TlbFills x z ∧ z.reaches v = some f ∧ y = { z with page := z.page.storeAt f v b }

/-- It changes no translation that is there, and hits no table. -/
def TlbCall.meets : TlbCall → PageState → Prop
  | mount phys log, s => mountKeeps s log (calcPage phys)
  | umount log, s => umountKeeps s log
  | alloc addr size, s => allocKeeps addr ((size.toNat + 0xFFF) / 0x1000) 0 s
  | load _, _ => True
  | store v _, s => ∀ f, s.frameAt v = some f → ∀ q, q.length ≤ 3 → s.reach s.root q ≠ some f

section Store

variable {s : PageState} {f : Frame} {v : BitVec 64} {b : BitVec 8}

theorem reach_storeAt (h : ∀ q, q.length ≤ 3 → s.reach s.root q ≠ some f) {q : List (BitVec 9)}
    (hq : q.length ≤ 3) : (s.storeAt f v b).reach s.root q = s.reach s.root q :=
  follow_storeAt h (by omega)

theorem noTable_of_reach (h : ∀ q, q.length ≤ 3 → s.reach s.root q ≠ some f) : s.noTable s.root f :=
  fun q hq hwalk => h q hq (reach_of_walk hwalk)

theorem TlbTables.storeAt (ht : TlbTables s) (h : ∀ q, q.length ≤ 3 → s.reach s.root q ≠ some f) :
    TlbTables (s.storeAt f v b) where
  tree :=
    { tree := fun p q g hp hq hpg hqg => ht.tree.tree p q g hp hq ((reach_storeAt h hp).symm.trans hpg)
        ((reach_storeAt h hq).symm.trans hqg)
      kernel := (walk_storeAt (noTable_of_reach h) (by decide)).trans ht.tree.kernel }
  space := ht.space
  taken p g hp hg := ht.taken p g hp ((reach_storeAt h hp).symm.trans hg)

theorem TlbTables.walks_storeAt (ht : TlbTables s)
    (h : ∀ q, q.length ≤ 3 → s.reach s.root q ≠ some f) : (s.storeAt f v b).walks = s.walks := by
  funext p
  have hno : s.noTable (frameOf s.cr3) f := by
    rw [ht.space]
    exact noTable_of_reach h
  exact translate_storeAt hno (pageAddr p)

end Store

/-- A step that changes no translation that is there leaves the TLB right. -/
theorem tlb_right_step {c : TlbCall} {x y : TlbState} (ht : TlbTables x.page) (h : x.Right)
    (hc : c.meets x.page) (hstep : TlbStep c x y) : TlbTables y.page ∧ y.Right := by
  cases c with
  | mount phys log =>
    obtain ⟨hsafe, htables⟩ := tlbSafe_mountPageDo ht hc
    obtain ⟨-, hpage, hright⟩ := hsafe x () y rfl h hstep
    exact ⟨hpage ▸ htables, hright⟩
  | umount log =>
    obtain ⟨hsafe, htables⟩ := tlbSafe_umountPage ht hc
    obtain ⟨ret, hruns⟩ := hstep
    obtain ⟨-, hpage, hright⟩ := hsafe x ret y rfl h hruns
    exact ⟨hpage ▸ htables, hright⟩
  | alloc addr size =>
    obtain ⟨hsafe, htables⟩ := tlbSafe_allocLoop ht hc
    obtain ⟨-, hpage, hright⟩ := hsafe x () y rfl h hstep
    exact ⟨hpage ▸ htables, hright⟩
  | load v => exact ⟨hstep.1.1 ▸ ht, h.fills hstep.1⟩
  | store v b =>
    obtain ⟨z, f, hfill, hreach, rfl⟩ := hstep
    have hz : z.Right := h.fills hfill
    rw [hz.reaches, hfill.1] at hreach
    have hno := hc f hreach
    rw [← hfill.1] at ht hno
    refine ⟨ht.storeAt hno, ?_⟩
    unfold TlbState.Right
    rw [ht.walks_storeAt hno]
    exact hz

/-- Over every run the TLB stays right, and every access goes where the tables lead. -/
theorem tlb_right_run {x y : TlbState} (ht : TlbTables x.page) (h : x.Right)
    (hrun : Relation.ReflTransGen (fun x y => ∃ c : TlbCall, c.meets x.page ∧ TlbStep c x y) x y) :
    y.Right ∧ ∀ z, TlbFills y z → ∀ v, z.reaches v = y.page.frameAt v := by
  have hinv : TlbTables y.page ∧ y.Right := by
    refine run_invariant (fun x : TlbState => TlbTables x.page ∧ x.Right) ?_ hrun ⟨ht, h⟩
    intro x y hx hxy
    obtain ⟨c, hc, hstep⟩ := hxy
    exact tlb_right_step hx.1 hx.2 hc hstep
  refine ⟨hinv.2, fun z hfill v => ?_⟩
  rw [(hinv.2.fills hfill).reaches, hfill.1]

/-- The machine of `bareState`, with nothing in the TLB. -/
def bareTlb : TlbState := ⟨bareState, fun _ => none⟩

/-- A page was mapped there. -/
def mappedTlb : TlbState := ((mountPage 0x7000#64 0x400000#64).run tlbExec bareTlb).2

theorem bareTlb_right : TlbTables bareTlb.page ∧ bareTlb.Right := by
  have hspace : frameOf bareState.cr3 = bareState.root := by decide +kernel
  have htree := bareState_tree.tableTree bareState_upperPresent
  refine ⟨⟨⟨htree, hspace⟩, fun p f hp hf => ?_⟩, fun p e he => by cases he⟩
  exact bareState_tree.taken p f hp ((bareState_upperPresent.reach hp).symm.trans hf)

theorem bareTlb_mount : TlbStep (.mount 0x7000#64 0x400000#64) bareTlb mappedTlb :=
  runs_run (fun _ => ⟨rfl, Fills.refl _ _⟩) _ bareTlb

theorem tlb_right_mapped : bareTlb.page.frameAt 0x400000#64 = none ∧
    TlbStep (.mount 0x7000#64 0x400000#64) bareTlb mappedTlb ∧
    mappedTlb.page.frameAt 0x400000#64 = some 7 ∧
    mappedTlb.Right ∧ ∀ z, TlbFills mappedTlb z → ∀ v, z.reaches v = mappedTlb.page.frameAt v := by
  have hmeets : mountKeeps bareState 0x400000#64 (calcPage 0x7000#64) := by
    obtain ⟨hm, -⟩ := mountPageDo_zeroed bareState_tree bareState_upperPresent 0x400000#64
      (calcPage 0x7000#64) kernelMapped_zeroed
    exact ⟨tablesMeet_of_zeroed hm, Or.inr (Or.inl (by decide +kernel))⟩
  obtain ⟨ht, h⟩ := bareTlb_right
  exact ⟨by decide +kernel, bareTlb_mount, by decide +kernel,
    tlb_right_run ht h (.single ⟨.mount 0x7000#64 0x400000#64, hmeets, bareTlb_mount⟩)⟩

/-- The page was looked at. -/
def loadedTlb : TlbState := { mappedTlb with
  tlb := fun p => if p = pageOf 0x400000#64 then mappedTlb.page.walks p else mappedTlb.tlb p }

theorem TlbState.not_right {x : TlbState} {v : BitVec 64} (h : x.reaches v ≠ x.page.frameAt v) :
    ¬ x.Right := fun hright => h (hright.reaches v)

/-- Taken away then, the page is still there. Mapped otherwise instead, it is where it was. -/
theorem tlb_stale : (TlbTables bareTlb.page ∧ bareTlb.Right) ∧
    TlbStep (.mount 0x7000#64 0x400000#64) bareTlb mappedTlb ∧
    TlbStep (.load 0x400000#64) mappedTlb loadedTlb ∧
    (∃ y, TlbStep (.umount 0x400000#64) loadedTlb y ∧ y.page.frameAt 0x400000#64 = none ∧
      y.reaches 0x400000#64 = some 7 ∧ ¬ y.Right) ∧
    ∃ y, TlbStep (.mount 0x8000#64 0x400000#64) loadedTlb y ∧ y.page.frameAt 0x400000#64 = some 8 ∧
      y.reaches 0x400000#64 = some 7 ∧ ¬ y.Right := by
  have hrefl : ∀ x, TlbFills x x := fun _ => ⟨rfl, Fills.refl _ _⟩
  have hload : TlbStep (.load 0x400000#64) mappedTlb loadedTlb := by
    refine ⟨⟨rfl, fun p => ?_⟩, by decide +kernel⟩
    by_cases hp : p = pageOf 0x400000#64
    · exact Or.inr (if_pos hp)
    · exact Or.inl (if_neg hp)
  refine ⟨bareTlb_right, bareTlb_mount, hload, ⟨_, ⟨_, runs_run hrefl _ loadedTlb⟩, ?_, ?_, ?_⟩,
    ⟨_, runs_run hrefl _ loadedTlb, ?_, ?_, ?_⟩⟩
  · decide +kernel
  · decide +kernel
  · exact TlbState.not_right (v := 0x400000#64) (by decide +kernel)
  · decide +kernel
  · decide +kernel
  · exact TlbState.not_right (v := 0x400000#64) (by decide +kernel)

end OS64.Mm
