import OS64.Lib.Cache
import OS64.Lib.Interfere
import OS64.Mm.PageBytes
import OS64.Mm.PageUmount

/-!
# The processor with its TLB

The TLB is a partial map from virtual pages to the entries that map them. At any access to memory,
the code's own included, it may take up what the tables in force map any page by; it gives an entry
back at `invlpg` of its page, and all of them when `CR3` is written. An access goes by the cached
entry where there is one.

`mount_page_t` and `umount_page_t` follow every write of the slot by `invlpg`, so through the window
the functions of `page.c` see what they would see without a TLB. `TlbSafe` says of a part of a
program that it does the same as without, and leaves the TLB right as it found it. What it takes is
that every entry it writes, the slot aside, is one that maps nothing yet.
-/

namespace OS64.Mm

open OS64.Lib Prog

/-! ## Pages -/

/-- A virtual page, by its number. -/
abbrev VPage := BitVec 36

/-- The page of an address: its bits 12 to 47. -/
def pageOf (v : BitVec 64) : VPage := v.extractLsb' 12 36

/-- An address in the page. -/
def pageAddr (p : VPage) : BitVec 64 := p.setWidth 64 <<< 12

/-- `TMP_MOUNT_ADDR`. -/
def tmpMountAddr : BitVec 64 := 0xFFFFFFFFC0000000#64

/-- Its page. -/
def windowPage : VPage := pageOf tmpMountAddr

theorem pageOf_toNat (v : BitVec 64) : (pageOf v).toNat = v.toNat % 2 ^ 48 / 2 ^ 12 := by
  rw [pageOf, BitVec.extractLsb'_toNat, Nat.shiftRight_eq_div_pow]
  omega

theorem pageOf_eq_iff {v w : BitVec 64} : pageOf v = pageOf w ↔ pagePath v = pagePath w := by
  rw [pagePath_eq_iff, ← pageOf_toNat, ← pageOf_toNat, BitVec.toNat_inj]

theorem pageOf_pageAddr (p : VPage) : pageOf (pageAddr p) = p := by
  apply BitVec.eq_of_toNat_eq
  have hp := p.isLt
  rw [pageOf_toNat, pageAddr, BitVec.toNat_shiftLeft, BitVec.toNat_setWidth, Nat.shiftLeft_eq]
  omega

theorem pagePath_pageAddr (v : BitVec 64) : pagePath (pageAddr (pageOf v)) = pagePath v :=
  pageOf_eq_iff.mp (pageOf_pageAddr _)

theorem pagePath_window {p : VPage} : pagePath (pageAddr p) = windowPath ↔ p = windowPage := by
  have hwin : windowPath = pagePath tmpMountAddr := by decide
  rw [hwin, ← pageOf_eq_iff, pageOf_pageAddr]
  rfl

theorem translate_congr (s : PageState) (r : Frame) {v w : BitVec 64} (h : pagePath v = pagePath w) :
    s.translate r v = s.translate r w := translate_eq s r h

/-! ## The machine -/

/-- The entry that each page is mapped by in the tree under `CR3`. -/
def PageState.walks (s : PageState) (p : VPage) : Option Pte :=
  s.translate (frameOf s.cr3) (pageAddr p)

/-- The machine and what the TLB holds. -/
structure TlbState where
  page : PageState
  tlb : VPage → Option Pte

/-- The frame that an access to `v` goes to. -/
def TlbState.reaches (x : TlbState) (v : BitVec 64) : Option Frame :=
  if canonical v then (through x.page.walks x.tlb (pageOf v)).map Pte.address else none

/-- The frame of the window, which is mapped wherever it is looked at. -/
def TlbState.window (x : TlbState) : Frame := (x.reaches tmpMountAddr).getD x.page.window

/-- The TLB takes up what it likes of the tables in force. -/
def TlbFills (x y : TlbState) : Prop := y.page = x.page ∧ Fills x.page.walks x.tlb y.tlb

/-- The operations on a processor with a TLB. -/
def tlbExec : (o : PageOp) → TlbState → o.Res × TlbState
  | .invlpg, x => ((), { x with tlb := dropped windowPage x.tlb })
  | .setCr3 v, x => ((), ⟨{ x.page with cr3 := v }, fun _ => none⟩)
  | .readEntry i, x => (x.page.mem x.window i, x)
  | .writeEntry i e, x =>
    ((), { x with page := { x.page with mem := setEntry x.page.mem x.window i e } })
  | .readWindow, x => (x.page.mem x.window, x)
  | .writeWindow p, x =>
    ((), { x with page := { x.page with mem := setPage x.page.mem x.window p } })
  | o, x => ((pageExec o x.page).1, { x with page := (pageExec o x.page).2 })

/-- What a program of `page.c` may come to with a TLB. -/
abbrev TlbRuns {α : Type} (p : PageProg α) (x : TlbState) (a : α) (y : TlbState) : Prop :=
  p.Runs TlbFills tlbExec x a y

/-- Every cached translation is the present one. -/
def TlbState.Right (x : TlbState) : Prop := Coherent x.page.walks x.tlb

/-- Every one but that of the window. -/
def TlbState.RightOff (x : TlbState) : Prop := CoherentOff windowPage x.page.walks x.tlb

section Right

variable {x y : TlbState}

theorem TlbState.Right.fills (h : x.Right) (hf : TlbFills x y) : y.Right := by
  unfold TlbState.Right
  rw [hf.1]
  exact Coherent.fills h hf.2

theorem TlbState.RightOff.fills (h : x.RightOff) (hf : TlbFills x y) : y.RightOff := by
  unfold TlbState.RightOff
  rw [hf.1]
  exact CoherentOff.fills h hf.2

/-- With a TLB that is right every access goes where the tables lead. -/
theorem TlbState.Right.reaches (h : x.Right) (v : BitVec 64) : x.reaches v = x.page.frameAt v := by
  unfold TlbState.reaches PageState.frameAt
  rw [Coherent.through h, PageState.walks,
    translate_congr x.page (frameOf x.page.cr3) (pagePath_pageAddr v)]

end Right

/-! ## The tables and the slot -/

/-- The tables as the functions know them are those in force. -/
structure Tables (s : PageState) : Prop where
  tree : TableTree s
  space : frameOf s.cr3 = s.root

section Tables

variable {s : PageState}

theorem Tables.walks_eq (h : Tables s) (p : VPage) :
    s.walks p = s.translate s.root (pageAddr p) := by
  rw [PageState.walks, h.space]

/-- The window is mapped by the slot. -/
theorem Tables.walks_window (h : Tables s) :
    s.walks windowPage = if s.slot.present then some s.slot else none := by
  rw [h.walks_eq]
  exact translate_slot h.tree.kernel (pagePath_window.mpr rfl)

theorem Tables.setSlot (h : Tables s) (e : Pte) : Tables (s.setSlot e) := by
  have hput := h.tree.put (P := kernelPath) rfl (reach_of_walk h.tree.kernel) 0 e
  exact ⟨⟨hput.tree, hput.kernel⟩, h.space⟩

/-- A write of the slot maps no other page anew. -/
theorem Tables.walks_setSlot (h : Tables s) (e : Pte) {p : VPage} (hp : p ≠ windowPage) :
    (s.setSlot e).walks p = s.walks p := by
  rw [(h.setSlot e).walks_eq, h.walks_eq]
  exact h.tree.translate_put (P := kernelPath) rfl (reach_of_walk h.tree.kernel) 0 e
    fun hwin => hp (pagePath_window.mp hwin)

/-- Written over an entry that maps nothing, the tables map what they mapped. -/
theorem walks_put_over {f : Frame} {i : BitVec 9} (hnone : (s.mem f i).next = none) (e : Pte)
    {p : VPage} {e' : Pte} (h : s.walks p = some e') : (s.put f i e).walks p = some e' :=
  lookup_setEntry_over hnone h

end Tables

/-! ## Parts of programs that do as without a TLB -/

/-- From `s`, with a TLB that is right, the program does what it does without, and leaves the TLB
right. -/
def TlbSafe {α : Type} (p : PageProg α) (s : PageState) : Prop :=
  ∀ x a y, x.page = s → x.Right → TlbRuns p x a y →
    a = (p.run pageExec s).1 ∧ y.page = (p.run pageExec s).2 ∧ y.Right

section Safe

variable {α β : Type} {s : PageState}

theorem tlbSafe_pure (a : α) : TlbSafe (pure a) s := by
  intro x b y hx hright hrun
  obtain ⟨rfl, rfl⟩ := hrun
  exact ⟨rfl, hx, hright⟩

theorem tlbSafe_bind {p : PageProg α} {f : α → PageProg β} (hp : TlbSafe p s)
    (hf : TlbSafe (f (p.run pageExec s).1) (p.run pageExec s).2) : TlbSafe (p >>= f) s := by
  intro x b y hx hright hrun
  obtain ⟨a, x₁, hfirst, hrest⟩ := runs_bind.mp hrun
  obtain ⟨rfl, hx₁, hright₁⟩ := hp x a x₁ hx hright hfirst
  rw [run_bind]
  exact hf x₁ b y hx₁ hright₁ hrest

/-- The operation leaves the tables alone, and does not look through the window. -/
def quiet : PageOp → Prop
  | .mountSlot _ | .clearSlot | .invlpg | .readEntry _ | .writeEntry _ _ | .readWindow
  | .writeWindow _ | .setCr3 _ => False
  | _ => True

theorem tlbExec_quiet {o : PageOp} (ho : quiet o) (x : TlbState) :
    (tlbExec o x).1 = (pageExec o x.page).1 ∧ (tlbExec o x).2 = ⟨(pageExec o x.page).2, x.tlb⟩ ∧
      (pageExec o x.page).2.walks = x.page.walks := by
  cases o with
  | mountSlot | clearSlot | invlpg | readEntry | writeEntry | readWindow | writeWindow | setCr3 =>
    exact ho.elim
  | _ => exact ⟨rfl, rfl, rfl⟩

/-- Quiet operations do not tell a TLB from none, whether it is right for the window or not. -/
theorem runs_quiet {p : PageProg α} (hp : AllOps quiet p) {x y : TlbState} {a : α}
    (hrun : TlbRuns p x a y) : a = (p.run pageExec x.page).1 ∧ y.page = (p.run pageExec x.page).2 ∧
      (x.Right → y.Right) ∧ (x.RightOff → y.RightOff) := by
  induction p generalizing x with
  | ret b =>
    obtain ⟨rfl, rfl⟩ := hrun
    exact ⟨rfl, rfl, id, id⟩
  | op o next ih =>
    obtain ⟨x₁, hfill, hrest⟩ := hrun
    obtain ⟨hres, hstate, hwalks⟩ := tlbExec_quiet hp.1 x₁
    rw [hres, hstate, hfill.1] at hrest
    rw [hfill.1] at hwalks
    obtain ⟨ha, hy, hright, hoff⟩ := ih _ (hp.2 _) hrest
    refine ⟨ha, hy, fun h => hright ?_, fun h => hoff ?_⟩
    · have h₁ := h.fills hfill
      unfold TlbState.Right at h₁ ⊢
      rw [hfill.1] at h₁
      rw [hwalks]
      exact h₁
    · have h₁ := h.fills hfill
      unfold TlbState.RightOff at h₁ ⊢
      rw [hfill.1] at h₁
      rw [hwalks]
      exact h₁

theorem tlbSafe_quiet {p : PageProg α} (hp : AllOps quiet p) : TlbSafe p s := by
  intro x a y hx hright hrun
  subst hx
  obtain ⟨ha, hy, h, -⟩ := runs_quiet hp hrun
  exact ⟨ha, hy, h hright⟩

/-- A write of the slot leaves the TLB right but for the window. -/
theorem TlbState.RightOff.setSlot {x : TlbState} (h : x.RightOff) (ht : Tables x.page) (e : Pte) :
    TlbState.RightOff { x with page := x.page.setSlot e } := by
  refine CoherentOff.keeps h fun p e' hp hwalk => ?_
  rw [ht.walks_setSlot e hp]
  exact hwalk

theorem quiet_onZero {o : PageProg Unit} (ho : AllOps quiet o) (n : BitVec 8) :
    AllOps quiet (onZero n o) := by
  unfold onZero
  split
  · exact ho
  · exact .pure _

theorem quiet_intrEnable : AllOps quiet intrEnable :=
  (AllOps.perform trivial).bind fun _ => (quiet_onZero (.perform trivial) _).bind fun _ =>
    (AllOps.perform trivial).bind fun _ => (AllOps.perform trivial).bind fun _ =>
      quiet_onZero (.perform trivial) _

theorem quiet_intrDisable : AllOps quiet intrDisable :=
  (AllOps.perform trivial).bind fun _ => (AllOps.perform trivial).bind fun _ => .perform trivial

/-- The slot is written and the page of the window dropped: the TLB is right again, also where it
was not for the window. -/
theorem runs_setSlot {o : PageOp} {e : Pte}
    (ho : ∀ x, (tlbExec o x).2 = { x with page := x.page.setSlot e }) {x y : TlbState}
    (ht : Tables x.page) (hoff : x.RightOff)
    (hrun : TlbRuns (do let _ ← perform o; perform .invlpg) x () y) :
    y.page = x.page.setSlot e ∧ y.Right := by
  obtain ⟨_, x₁, ⟨x₂, hfill₂, -, rfl⟩, x₃, hfill₃, -, rfl⟩ := runs_bind.mp hrun
  rw [ho] at hfill₃
  have hpage : x₃.page = x.page.setSlot e := by
    rw [hfill₃.1, ← hfill₂.1]
  have hslot : TlbState.RightOff { x₂ with page := x₂.page.setSlot e } := by
    refine (hoff.fills hfill₂).setSlot ?_ e
    rw [hfill₂.1]
    exact ht
  exact ⟨hpage, CoherentOff.dropped (hslot.fills hfill₃)⟩

/-- `mount_page_t` shows what it shows without a TLB. -/
theorem tlbSafe_mountPageT (ht : Tables s) (phys : BitVec 64) : TlbSafe (mountPageT phys) s := by
  intro x a y hx hright hrun
  subst hx
  obtain ⟨_, x₁, hfirst, hrun⟩ := runs_bind.mp hrun
  obtain ⟨-, hpage₁, -, hoff₁⟩ := runs_quiet quiet_intrDisable hfirst
  have hsplit : TlbRuns ((do let _ ← perform (.mountSlot phys); perform .invlpg) >>= fun _ =>
      intrEnable) x₁ () y := hrun
  obtain ⟨⟨⟩, x₂, hslot, hlast⟩ := runs_bind.mp hsplit
  have ht₁ : Tables x₁.page := by
    rw [hpage₁]
    exact ⟨⟨ht.tree.tree, ht.tree.kernel⟩, ht.space⟩
  obtain ⟨hpage₂, hright₂⟩ := runs_setSlot (e := calcPage phys) (fun _ => rfl) ht₁
    (hoff₁ (hright.off windowPage)) hslot
  obtain ⟨-, hpage, hright', -⟩ := runs_quiet quiet_intrEnable hlast
  refine ⟨rfl, ?_, hright' hright₂⟩
  rw [hpage, hpage₂, hpage₁]
  rfl

/-- `umount_page_t` makes the TLB right. -/
theorem runs_umountPageT {x y : TlbState} (ht : Tables x.page) (hoff : x.RightOff)
    (hrun : TlbRuns umountPageT x () y) : y.page = x.page.setSlot 0 ∧ y.Right :=
  runs_setSlot (e := 0) (fun _ => rfl) ht hoff hrun

theorem tlbSafe_umountPageT (ht : Tables s) : TlbSafe umountPageT s := by
  intro x a y hx hright hrun
  subst hx
  obtain ⟨hpage, hright'⟩ := runs_umountPageT ht (hright.off windowPage) hrun
  exact ⟨rfl, hpage, hright'⟩

/-- Through the open window the frame in the slot is seen. -/
theorem window_eq {x : TlbState} (ht : Tables x.page) (hright : x.Right)
    (hopen : x.page.slot.present = true) : x.window = x.page.window := by
  have hcan : canonical tmpMountAddr = true := by decide
  unfold TlbState.window TlbState.reaches
  rw [if_pos hcan, Coherent.through hright, show pageOf tmpMountAddr = windowPage from rfl,
    ht.walks_window, if_pos hopen]
  rfl

theorem tlbSafe_readEntry (ht : Tables s) (hopen : s.slot.present = true) (i : BitVec 9) :
    TlbSafe (perform (.readEntry i)) s := by
  intro x a y hx hright hrun
  subst hx
  obtain ⟨x₁, hfill, rfl, hy⟩ := hrun
  have hwin := window_eq (hfill.1.symm ▸ ht) (hright.fills hfill) (by rw [hfill.1]; exact hopen)
  rw [hy]
  refine ⟨?_, hfill.1, hright.fills hfill⟩
  show x₁.page.mem x₁.window i = x.page.mem x.page.window i
  rw [hwin, hfill.1]

/-- The state after a write through the window. -/
theorem runs_writeEntry {x y : TlbState} (ht : Tables x.page) (hopen : x.page.slot.present = true)
    (hright : x.Right) {i : BitVec 9} {e : Pte} (hrun : TlbRuns (perform (.writeEntry i e)) x () y) :
    y.page = x.page.put x.page.window i e ∧ Coherent x.page.walks y.tlb := by
  obtain ⟨x₁, hfill, -, rfl⟩ := hrun
  have hwin := window_eq (hfill.1.symm ▸ ht) (hright.fills hfill) (by rw [hfill.1]; exact hopen)
  refine ⟨?_, hfill.1 ▸ hright.fills hfill⟩
  show ({ x₁.page with mem := setEntry x₁.page.mem x₁.window i e } : PageState) = _
  rw [hwin, hfill.1]
  rfl

/-- A write that keeps what the tables map. -/
theorem tlbSafe_writeEntry (ht : Tables s) (hopen : s.slot.present = true) {i : BitVec 9} {e : Pte}
    (hkeeps : ∀ p e', s.walks p = some e' → (s.put s.window i e).walks p = some e') :
    TlbSafe (perform (.writeEntry i e)) s := by
  intro x a y hx hright hrun
  subst hx
  obtain ⟨hpage, hold⟩ := runs_writeEntry ht hopen hright hrun
  refine ⟨rfl, hpage, ?_⟩
  unfold TlbState.Right
  rw [hpage]
  exact hold.keeps hkeeps

/-- A write that keeps what the tables map but for the window, and the closing of the window. -/
theorem tlbSafe_writeLast (ht : Tables s) (hopen : s.slot.present = true) {i : BitVec 9} {e : Pte}
    (ht' : Tables (s.put s.window i e))
    (hkeeps : ∀ p e', p ≠ windowPage → s.walks p = some e' →
      (s.put s.window i e).walks p = some e') :
    TlbSafe (do let _ ← perform (.writeEntry i e); umountPageT) s := by
  intro x a y hx hright hrun
  subst hx
  obtain ⟨⟨⟩, x₁, hfirst, hlast⟩ := runs_bind.mp hrun
  obtain ⟨hpage₁, hold⟩ := runs_writeEntry ht hopen hright hfirst
  have hoff : x₁.RightOff := by
    unfold TlbState.RightOff
    rw [hpage₁]
    exact (hold.off windowPage).keeps hkeeps
  obtain ⟨hpage, hright'⟩ := runs_umountPageT (hpage₁ ▸ ht') hoff hlast
  refine ⟨rfl, ?_, hright'⟩
  rw [hpage, hpage₁]
  rfl

end Safe

end OS64.Mm
