import OS64.Mm.PageZeroed
import OS64.Mm.Tlb

/-!
# Mounting with a TLB

`mount_page_do` adds the tables that a path misses and writes the entry of the page. It is safe with a
TLB where nothing that is mapped comes to be mapped otherwise (`mountKeeps`): a table is hung where
there was an entry of 0, and the page was not mapped, or by the entry that is written. Otherwise the
old entry of the page may stay in the TLB, for only the window is dropped from it.

`MountAt` is where the walk stands; `MountAt.found` and `MountAt.new` are its steps.
-/

namespace OS64.Mm

open OS64.Lib Prog

/-! ## The tables along a run -/

/-- The tables, none of which is free. -/
structure TlbTables (s : PageState) : Prop extends Tables s where
  taken : ∀ p f, p.length ≤ 3 → s.reach s.root p = some f → ¬ s.free f

section Kept

variable {s : PageState} {P : List (BitVec 9)} {f t : Frame} {i : BitVec 9}

theorem TlbTables.put (h : TlbTables s) (hP : P.length = 3) (ht : s.reach s.root P = some t)
    (i : BitVec 9) (e : Pte) : TlbTables (s.put t i e) where
  tree := h.tree.put hP ht i e
  space := h.space
  taken p f hp hf := h.taken p f hp ((h.tree.reach_put hP ht i e hp).symm.trans hf)

theorem TlbTables.setSlot (h : TlbTables s) (e : Pte) : TlbTables (s.setSlot e) where
  tree := (h.toTables.setSlot e).tree
  space := h.space
  taken := (h.put (P := kernelPath) rfl (reach_of_walk h.tree.kernel) 0 e).taken

theorem TlbTables.mounted (h : TlbTables s) (phys : BitVec 64) : TlbTables (s.mounted phys) :=
  have hslot := h.setSlot (calcPage phys)
  ⟨⟨⟨hslot.tree.tree, hslot.tree.kernel⟩, hslot.space⟩, hslot.taken⟩

theorem TlbTables.closed (h : TlbTables s) : TlbTables s.closed :=
  have hslot := h.setSlot 0
  ⟨⟨⟨hslot.tree.tree, hslot.tree.kernel⟩, hslot.space⟩, hslot.taken⟩

theorem free_of_alloc {g : Frame} (hg : s.alloc.free g) : s.free g := by
  rcases allocPhysPage_cases s.phys with ⟨-, heq⟩ | ⟨p, phys', -, -, heq, hsize, hused⟩
  · rw [PageState.free, PageState.alloc, heq] at hg
    exact hg
  · rw [PageState.free, PageState.alloc, heq] at hg
    obtain ⟨hge, hlt, hfree⟩ := hg
    rw [hused, Bool.or_eq_false_iff] at hfree
    exact ⟨hge, hsize ▸ hlt, hfree.1⟩

theorem TlbTables.alloc (h : TlbTables s) : TlbTables s.alloc where
  tree := ⟨h.tree.tree, h.tree.kernel⟩
  space := h.space
  taken p f hp hf hfree := h.taken p f hp hf (free_of_alloc hfree)

/-- No free frame is `kernel_pt`. -/
theorem TlbTables.free_ne (h : TlbTables s) {g : Frame} (hg : s.free g) : g ≠ s.kptFrame := by
  rintro rfl
  exact h.taken kernelPath _ (by decide) (reach_of_walk h.tree.kernel) hg

theorem TlbTables.alloc_ne (h : TlbTables s) (hok : s.allocAddr ≠ 0) :
    frameOf s.allocAddr ≠ s.kptFrame := by
  obtain ⟨g, hfree, haddr, -, -⟩ := alloc_spec hok
  rw [haddr, frameOf_frameAddr]
  exact h.free_ne hfree

/-- A fresh table is hung where an upper table has an entry of 0; above the lowest level it is
empty. -/
theorem TlbTables.newTable (h : TlbTables s) (ph : Pte) (hP : P.length ≤ 2)
    (hf : s.reach s.root P = some f) (h0 : s.mem f i = 0) (hok : s.allocAddr ≠ 0)
    (hempty : P.length < 2 → ∀ j, s.mem (frameOf s.allocAddr) j = 0) :
    TlbTables (s.alloc.put f i (s.newTable ph)) := by
  obtain ⟨g, hfree, haddr, -, hafter⟩ := alloc_spec hok
  have hg : frameOf s.allocAddr = g := by rw [haddr, frameOf_frameAddr]
  have he : (s.newTable ph).next = some g := by rw [newTable_next, hg]
  have hleads := Pte.leads_of_next he
  have hfresh : ∀ q, q.length ≤ 3 → s.reach s.root q ≠ some g :=
    fun q hq hh => h.taken q g hq hh hfree
  have hgf : g ≠ f := fun hh => hfresh P (by omega) (by rw [hf, hh])
  have hbarren : P.length < 2 → Barren Pte.leads s.mem g := by
    intro hlt j
    rw [← hg, hempty hlt j]
    rfl
  refine ⟨⟨⟨?_, ?_⟩, h.space⟩, ?_⟩
  · exact isTree_link h.tree.tree (by omega) hf hleads hfresh fun hlt => hbarren (by omega)
  · have hnone : (s.alloc.mem f i).next = none := by rw [alloc_mem, h0, Pte.next_zero]
    exact follow_setEntry_over hnone h.tree.kernel
  · intro q u hq hu
    have hend : ∀ j r, q = P ++ i :: j :: r → (s.mem g j).leads = none := by
      intro j r hqeq
      have hlen : q.length = P.length + (r.length + 2) := by simp [hqeq]
      exact hbarren (by omega) j
    have hwalk := (follow_link (h.tree.onlyAt (by omega) hf) (by omega) hf hleads hgf
      (by omega) hend).symm.trans hu
    by_cases hat : q = P ++ [i]
    · rw [if_pos hat] at hwalk
      cases hwalk
      exact fun hh => ((hafter _).mp hh).2 rfl
    · rw [if_neg hat] at hwalk
      by_cases hpre : (P ++ [i]) <+: q
      · rw [if_pos hpre] at hwalk
        cases hwalk
      · rw [if_neg hpre] at hwalk
        exact fun hh => h.taken q u hq hwalk (free_of_alloc hh)

end Kept

/-! ## The levels of a walk -/

section Levels

variable {s : PageState} {P : List (BitVec 9)} {table : BitVec 64} {i : BitVec 9}

/-- What the open window shows of an upper table. -/
theorem mounted_read (hne : frameOf table ≠ s.kptFrame) (i : BitVec 9) :
    ((perform (.readEntry i)).run pageExec (s.mounted table)).1 = s.mem (frameOf table) i := by
  show (s.mounted table).mem (s.mounted table).window i = _
  rw [window_mounted, mounted_mem (Or.inl hne)]

theorem mounted_open (table : BitVec 64) : (s.mounted table).slot.present = true := by
  show (s.setSlot (calcPage table)).slot.present = true
  rw [slot_setSlot]
  exact (calcPage_spec table).2.1

/-- A level of `mount_page_do`: it writes over an entry of 0 at most. -/
theorem tlbSafe_mountLevel (h : TlbTables s) (ph : Pte) (hP : P.length ≤ 2)
    (hf : s.reach s.root P = some (frameOf table))
    (hnew : s.mem (frameOf table) i = 0 → s.allocAddr ≠ 0 ∧
      (P.length < 2 → ∀ j, s.mem (frameOf s.allocAddr) j = 0)) :
    TlbSafe (mountLevel table i ph) s := by
  have hne : frameOf table ≠ s.kptFrame := h.tree.upper_ne hP hf
  have hopen := mounted_open (s := s) table
  have hmounted := h.mounted table
  unfold mountLevel
  refine tlbSafe_bind (tlbSafe_mountPageT h.toTables table) ?_
  rw [run_mountPageT]
  refine tlbSafe_bind (tlbSafe_readEntry hmounted.toTables hopen i) ?_
  rw [mounted_read hne i]
  show TlbSafe _ (s.mounted table)
  by_cases h0 : s.mem (frameOf table) i = 0
  · rw [if_pos h0]
    obtain ⟨hok, hempty⟩ := hnew h0
    have hreach : (s.mounted table).reach s.root P = some (frameOf table) :=
      (h.tree.reach_put (P := kernelPath) rfl (reach_of_walk h.tree.kernel) 0 _ (by omega)).trans hf
    have hmem : (s.mounted table).mem (frameOf table) i = 0 := by
      rw [mounted_mem (Or.inl hne), h0]
    have hlinked := hmounted.newTable ph hP hreach hmem hok fun hlt j =>
      (mounted_mem (Or.inl (h.alloc_ne hok))).trans (hempty hlt j)
    have hwindow : (s.mounted table).alloc.window = frameOf table := window_mounted s table
    have hkeeps : ∀ p e', (s.mounted table).alloc.walks p = some e' →
        ((s.mounted table).alloc.put (s.mounted table).alloc.window i
          ((s.mounted table).newTable ph)).walks p = some e' := by
      intro p e' hwalk
      refine walks_put_over ?_ _ hwalk
      rw [hwindow, alloc_mem, hmem, Pte.next_zero]
    refine tlbSafe_bind (tlbSafe_quiet ?_) ?_
    · exact (AllOps.perform trivial).bind fun _ => .pure _
    · refine tlbSafe_bind (tlbSafe_writeEntry hmounted.alloc.toTables hopen hkeeps)
        (tlbSafe_bind (tlbSafe_umountPageT ?_) (tlbSafe_pure _))
      show Tables ((s.mounted table).alloc.put (s.mounted table).alloc.window i
          ((s.mounted table).newTable ph))
      rw [hwindow]
      exact hlinked.toTables
  · rw [if_neg h0]
    exact tlbSafe_bind (tlbSafe_umountPageT hmounted.toTables) (tlbSafe_pure _)

end Levels

/-! ## `mount_page` -/

/-- A frame that may become a table for the rest of a path: an upper table is empty, a page table
does not map the page of the path. -/
def freshTable (p : Page) : List (BitVec 9) → Prop
  | [] => True
  | [j] => (p j).present = false
  | _ :: _ :: _ => ∀ k, p k = 0

/-- What `mount_page_do` meets on its way: tables that are there, and from the first entry of 0 on
frames that may become tables. -/
def tablesMeet (s : PageState) : Frame → List (BitVec 9) → Prop
  | f, i :: j :: is =>
    if s.mem f i = 0 then newTables freshTable s (j :: is) else tablesMeet s (s.mem f i).address (j :: is)
  | _, _ => True

/-- The page that is written is not mapped, or by the entry that is written. The window is dropped in any
case. -/
def leafKeeps (s : PageState) (v : BitVec 64) (e : Pte) : Prop :=
  pagePath v = windowPath ∨ s.translate s.root v = none ∨ s.translate s.root v = some e

/-- Nothing that is mapped comes to be mapped otherwise. -/
def mountKeeps (s : PageState) (v : BitVec 64) (ph : Pte) : Prop :=
  tablesMeet s s.root (pagePath v) ∧ leafKeeps s v ph

section Mount

variable {s : PageState} {v : BitVec 64} {e ph : Pte}

/-- Where the way to a page comes to an entry that is not present, the page is not mapped. -/
theorem translate_eq_none {g : Frame} {q r : List (BitVec 9)} {j : BitVec 9}
    (hreach : s.reach s.root q = some g) (hnone : (s.mem g j).next = none)
    (hv : pagePath v = q ++ j :: r) : s.translate s.root v = none := by
  refine lookup_eq_none.mpr ?_
  rw [← pagePath_eq, hv, List.append_cons]
  by_contra hsome
  obtain ⟨u, hu⟩ := Option.ne_none_iff_exists'.mp hsome
  obtain ⟨w, hw, -⟩ := follow_append_some hu
  obtain ⟨g', hg', -⟩ := follow_append_some hw
  cases hreach.symm.trans (reach_of_walk hg')
  rw [follow_concat, hg', Option.bind_some, hnone] at hw
  cases hw

theorem tablesMeet_closed (h : TlbTables s) {P is : List (BitVec 9)} {f : Frame}
    (hlen : P.length + is.length = 4) (hf : s.reach s.root P = some f) (hm : tablesMeet s f is) :
    tablesMeet s.closed f is := by
  induction is generalizing P f with
  | nil => trivial
  | cons i is ih =>
    cases is with
    | nil => trivial
    | cons j is =>
      simp only [List.length_cons] at hlen
      have hmem := closed_mem_other (i := i) (Or.inl (h.tree.upper_ne (P := P) (by omega) hf))
      unfold tablesMeet at hm ⊢
      rw [hmem]
      by_cases h0 : s.mem f i = 0
      · rw [if_pos h0] at hm ⊢
        exact newTables_congr (closed_phys s) (fun g hg => setEntry_frame (h.free_ne hg)) hm
      · rw [if_neg h0] at hm ⊢
        refine ih (P := P ++ [i]) (by simp; omega) ?_ hm
        rw [reach_concat, hf, Option.bind_some, Pte.leads, if_neg h0]

/-- Where every frame that is taken is cleared, the way is one that may be gone. -/
theorem tablesMeet_of_zeroed {f : Frame} {is : List (BitVec 9)} (h : mountMeets zeroed s f is) :
    tablesMeet s f is := by
  have hempty : ∀ p is, zeroed p is → freshTable p is := by
    intro p is hp
    cases is with
    | nil => trivial
    | cons j is =>
      cases is with
      | nil => exact (congrArg Pte.present (hp j)).trans (by decide)
      | cons j' is => exact hp
  have hnew : ∀ {is} {s : PageState}, newTables zeroed s is → newTables freshTable s is := by
    intro is
    induction is with
    | nil => exact fun _ => trivial
    | cons i is ih => exact fun h => ⟨h.1, hempty _ _ h.2.1, ih h.2.2⟩
  induction is generalizing f with
  | nil => trivial
  | cons i is ih =>
    cases is with
    | nil => trivial
    | cons j is =>
      rw [mountMeets] at h
      rw [tablesMeet]
      by_cases h0 : s.mem f i = 0
      · rw [if_pos h0] at h ⊢
        exact hnew h
      · rw [if_neg h0] at h ⊢
        exact ih h.2

/-- A page that is not mapped, or by the entry that is written, written. -/
theorem walks_put_leaf (h : Tables s) {P : List (BitVec 9)} {t : Frame} {i : BitVec 9}
    (hP : P.length = 3) (ht : s.reach s.root P = some t) (hv : pagePath v = P ++ [i])
    (hleaf : leafKeeps s v e) (p : VPage) (e' : Pte) (hp : p ≠ windowPage) (hwalk : s.walks p = some e') :
    (s.put t i e).walks p = some e' := by
  rw [h.walks_eq] at hwalk
  have hspace : Tables (s.put t i e) := ⟨h.tree.put hP ht i e, h.space⟩
  rw [hspace.walks_eq]
  by_cases hpage : pagePath (pageAddr p) = P ++ [i]
  · have hsame := translate_congr s s.root (hpage.trans hv.symm)
    rcases hleaf with hwin | hnone | hsome
    · exact absurd (pagePath_window.mp (hpage.trans (hv.symm.trans hwin))) hp
    · rw [hsame, hnone] at hwalk
      cases hwalk
    · -- the entry is written as it is
      obtain ⟨t', ht', hentry, hnext⟩ := lookup_eq_some.mp (hsame.trans hsome)
      have hpath := (pagePath_eq (pageAddr p)).symm.trans hpage
      obtain ⟨htable, hindex⟩ := List.append_inj' hpath rfl
      rw [htable] at ht'
      cases ht.symm.trans (reach_of_walk ht')
      rw [(List.cons.inj hindex).1] at hentry
      have hput : s.put t i e = s := by
        have hmem : setEntry s.mem t i e = s.mem := by
          funext g j
          by_cases hat : g = t ∧ j = i
          · rw [hat.1, hat.2, setEntry_same, hentry]
          · exact setEntry_other hat
        show ({ s with mem := setEntry s.mem t i e } : PageState) = s
        rw [hmem]
      rw [hput]
      exact hwalk
  · exact (h.tree.translate_put hP ht i e hpage).trans hwalk

/-- The way to a table of the lowest level while the window is open. -/
theorem mounted_reach (h : TlbTables s) (table : BitVec 64) {q : List (BitVec 9)} (hq : q.length ≤ 3) :
    (s.mounted table).reach s.root q = s.reach s.root q :=
  h.tree.reach_put (P := kernelPath) rfl (reach_of_walk h.tree.kernel) 0 _ hq

theorem leafKeeps.mounted (h : TlbTables s) (hleaf : leafKeeps s v e) (table : BitVec 64) :
    leafKeeps (s.mounted table) v e := by
  by_cases hwin : pagePath v = windowPath
  · exact Or.inl hwin
  · have hsame : (s.mounted table).translate s.root v = s.translate s.root v :=
      h.tree.translate_put (P := kernelPath) rfl (reach_of_walk h.tree.kernel) 0 _ hwin
    unfold leafKeeps
    rw [show (s.mounted table).root = s.root from rfl, hsame]
    exact hleaf

theorem leafKeeps.closed (h : TlbTables s) (hleaf : leafKeeps s v e) : leafKeeps s.closed v e := by
  by_cases hwin : pagePath v = windowPath
  · exact Or.inl hwin
  · unfold leafKeeps
    rw [closed_root, h.tree.translate_closed hwin]
    exact hleaf

/-- Where `mount_page_do` stands: at the table at the end of `P`, with the rest of the path of `v` to
go. -/
structure MountAt (s : PageState) (v : BitVec 64) (ph : Pte) (P is : List (BitVec 9)) (i : BitVec 9)
    (table : BitVec 64) : Prop where
  tables : TlbTables s
  length : P.length + is.length = 3
  reach : s.reach s.root P = some (frameOf table)
  path : pagePath v = P ++ is ++ [i]
  meet : tablesMeet s (frameOf table) (is ++ [i])
  leaf : leafKeeps s v ph

namespace MountAt

variable {P is : List (BitVec 9)} {i k : BitVec 9} {table : BitVec 64}

theorem upper (h : MountAt s v ph P (k :: is) i table) : P.length ≤ 2 := by
  have hlen := h.length
  rw [List.length_cons] at hlen
  omega

theorem ne (h : MountAt s v ph P (k :: is) i table) : frameOf table ≠ s.kptFrame :=
  h.tables.tree.upper_ne h.upper h.reach

/-- The frame taken where a table is missing. -/
theorem fresh (h : MountAt s v ph P (k :: is) i table) (h0 : s.mem (frameOf table) k = 0) :
    newTables freshTable s (is ++ [i]) := by
  have hm := h.meet
  cases is with
  | nil =>
    rw [show [k] ++ [i] = k :: i :: [] from rfl, tablesMeet, if_pos h0] at hm
    exact hm
  | cons j r =>
    rw [show k :: j :: r ++ [i] = k :: j :: (r ++ [i]) from rfl, tablesMeet, if_pos h0] at hm
    exact hm

/-- An upper table is taken empty. -/
theorem fresh_upper (h : MountAt s v ph P (k :: is) i table) (h0 : s.mem (frameOf table) k = 0) :
    s.allocAddr ≠ 0 ∧ (P.length < 2 → ∀ j, s.mem (frameOf s.allocAddr) j = 0) := by
  have hnew := h.fresh h0
  have hlen := h.length
  cases is with
  | nil =>
    refine ⟨hnew.1, fun hlt => ?_⟩
    rw [List.length_singleton] at hlen
    omega
  | cons j r =>
    refine ⟨hnew.1, fun _ => ?_⟩
    have hempty := hnew.2.1
    cases r with
    | nil => exact hempty
    | cons j' r => exact hempty

theorem tlbSafe_level (h : MountAt s v ph P (k :: is) i table) : TlbSafe (mountLevel table k ph) s :=
  tlbSafe_mountLevel h.tables ph h.upper h.reach h.fresh_upper

/-- Behind a table that is there. -/
theorem found (h : MountAt s v ph P (k :: is) i table) (h0 : s.mem (frameOf table) k ≠ 0) :
    MountAt s.closed v ph (P ++ [k]) is i (s.mem (frameOf table) k).base := by
  have hlen := h.length
  rw [List.length_cons] at hlen
  have hreach : s.reach s.root (P ++ [k]) = some (frameOf (s.mem (frameOf table) k).base) := by
    rw [reach_concat, h.reach, Option.bind_some, Pte.leads, if_neg h0, frameOf_base]
  have hm : tablesMeet s (frameOf (s.mem (frameOf table) k).base) (is ++ [i]) := by
    have hm := h.meet
    rw [frameOf_base]
    cases is with
    | nil => trivial
    | cons j r =>
      rw [show k :: j :: r ++ [i] = k :: j :: (r ++ [i]) from rfl, tablesMeet, if_neg h0] at hm
      exact hm
  refine ⟨h.tables.closed, by simp; omega, ?_, by rw [h.path]; simp, ?_, h.leaf.closed h.tables⟩
  · exact (h.tables.tree.reach_closed (by simp; omega)).trans hreach
  · exact tablesMeet_closed h.tables (by simp; omega) hreach hm

/-- Behind a table that was missing. -/
theorem new (h : MountAt s v ph P (k :: is) i table) (h0 : s.mem (frameOf table) k = 0) :
    MountAt (s.linked (frameOf table) k ph) v ph (P ++ [k]) is i (s.newTable ph).base := by
  have hlen := h.length
  rw [List.length_cons] at hlen
  obtain ⟨hok, hzero⟩ := h.fresh_upper h0
  have hlinked := h.tables.newTable ph h.upper h.reach h0 hok hzero
  obtain ⟨g, hfree, haddr, -, -⟩ := alloc_spec hok
  have hg : frameOf s.allocAddr = g := by rw [haddr, frameOf_frameAddr]
  have hnext : (s.newTable ph).next = some g := by rw [newTable_next, hg]
  have hframe : frameOf (s.newTable ph).base = g := by
    rw [frameOf_base]
    exact (Pte.next_eq_some.mp hnext).2
  have hreach : (s.linked (frameOf table) k ph).reach s.root (P ++ [k]) = some g := by
    refine (hlinked.tree.reach_closed (q := P ++ [k]) (by simp; omega)).trans ?_
    exact (follow_setEntry_at (h.tables.tree.onlyAt (by omega) h.reach) (by omega) h.reach).trans
      (Pte.leads_of_next hnext)
  -- no free frame is written, the new table among them
  have hmem : ∀ u, s.free u → (s.linked (frameOf table) k ph).mem u = s.mem u := by
    intro u hu
    have hne : u ≠ frameOf table := fun hh => h.tables.taken P _ (by omega) h.reach (hh ▸ hu)
    exact (setEntry_frame (h.tables.free_ne hu)).trans (setEntry_frame hne)
  have hnew := h.fresh h0
  refine ⟨hlinked.closed, by simp; omega, hframe ▸ hreach, by rw [h.path]; simp, ?_, Or.inr (Or.inl ?_)⟩
  · rw [hframe]
    cases is with
    | nil => trivial
    | cons j r =>
      obtain ⟨j', r', hr⟩ := List.exists_cons_of_ne_nil (List.concat_ne_nil i r)
      rw [List.cons_append, hr] at hnew ⊢
      obtain ⟨-, hempty, hrest⟩ := hnew
      have hentry : (s.linked (frameOf table) k ph).mem g j = 0 := by
        rw [hmem g hfree, ← hg]
        exact hempty j
      rw [tablesMeet, if_pos hentry]
      exact newTables_congr (s := s.alloc) rfl (fun u hu => hmem u (free_of_alloc hu)) hrest
  · cases is with
    | nil =>
      refine translate_eq_none (j := i) (r := []) hreach ?_ h.path
      rw [hmem g hfree, ← hg]
      exact Pte.next_eq_none.mpr hnew.2.1
    | cons j r =>
      refine translate_eq_none (j := j) (r := r ++ [i]) hreach ?_ (by rw [h.path]; simp)
      have hlow : P.length < 2 := by
        rw [List.length_cons] at hlen
        omega
      rw [hmem g hfree, ← hg, hzero hlow j, Pte.next_zero]

/-- The end of `mount_page_do`. -/
theorem tlbSafe_last (h : MountAt s v ph P [] i table) :
    TlbSafe (mountWalk ph table [i]) s ∧ TlbTables ((mountWalk ph table [i]).run pageExec s).2 := by
  have hP : P.length = 3 := by simpa using h.length
  have hv : pagePath v = P ++ [i] := by rw [h.path, List.append_nil]
  have hreach := (mounted_reach h.tables table hP.le).trans h.reach
  have hmounted := h.tables.mounted table
  have hput := hmounted.put hP hreach i ph
  have hwindow := window_mounted s table
  constructor
  · refine tlbSafe_bind (tlbSafe_mountPageT h.tables.toTables table) ?_
    rw [run_mountPageT]
    refine tlbSafe_writeLast hmounted.toTables (mounted_open table) ?_ ?_
    · rw [hwindow]
      exact hput.toTables
    · rw [hwindow]
      exact walks_put_leaf hmounted.toTables hP hreach hv (h.leaf.mounted h.tables table)
  · have hrun : (mountWalk ph table [i]).run pageExec s = _ := run_mountLast table i ph s
    rw [hrun]
    exact (h.tables.put hP h.reach i ph).closed

/-- From where it stands to the end. -/
theorem tlbSafe_walk (h : MountAt s v ph P is i table) :
    TlbSafe (mountWalk ph table (is ++ [i])) s ∧
      TlbTables ((mountWalk ph table (is ++ [i])).run pageExec s).2 := by
  induction is generalizing s P table with
  | nil => exact h.tlbSafe_last
  | cons k is ih =>
    obtain ⟨j, r, hrest⟩ := List.exists_cons_of_ne_nil (List.concat_ne_nil i is)
    have hrun : (mountLevel table k ph).run pageExec s = _ := run_mountLevel (Or.inl h.ne)
    have hnext : TlbSafe (mountWalk ph ((mountLevel table k ph).run pageExec s).1.base (is ++ [i]))
          ((mountLevel table k ph).run pageExec s).2 ∧
        TlbTables ((mountWalk ph ((mountLevel table k ph).run pageExec s).1.base (is ++ [i])).run
          pageExec ((mountLevel table k ph).run pageExec s).2).2 := by
      by_cases h0 : s.mem (frameOf table) k = 0
      · rw [hrun, if_pos h0]
        exact ih (h.new h0)
      · rw [hrun, if_neg h0]
        exact ih (h.found h0)
    rw [hrest] at hnext
    rw [List.cons_append, hrest, mountWalk, run_bind]
    exact ⟨tlbSafe_bind h.tlbSafe_level hnext.1, hnext.2⟩

end MountAt

/-- `mount_page_do` is safe where it keeps what is mapped. -/
theorem tlbSafe_mountPageDo (h : TlbTables s) (hm : mountKeeps s v ph) :
    TlbSafe (mountPageDo v ph) s ∧ TlbTables ((mountPageDo v ph).run pageExec s).2 := by
  have hat : MountAt s v ph [] (tablePath v) (linearIndex 0 v) s.pml4 :=
    ⟨h, rfl, rfl, pagePath_eq v, hm.1, hm.2⟩
  obtain ⟨hsafe, htables⟩ := hat.tlbSafe_walk
  exact ⟨tlbSafe_bind (f := fun t => mountWalk ph t (pagePath v))
    (tlbSafe_quiet (AllOps.perform trivial)) hsafe, htables⟩

end Mount

end OS64.Mm
