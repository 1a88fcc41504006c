import OS64.Mm.PageAnon

/-!
# `umount_page` and the way back

`umount_page` goes down the levels like `mount_page_do`, through the same window,
and clears the present bit of the entry it comes to. It tells a table that is
missing by an entry of 0, not by the present bit: `Pte.leads` is where the
functions go from an entry, `Pte.next` where the processor goes. The raw entry it
returns serves as a physical address: `mount_page` keeps the address bits of it.

In a `TableTree` each table the functions can come to is reached by one path. There
`umount_page` changes one entry, and `mount_page` with its result puts the page back.
-/

namespace OS64.Mm

open OS64.Lib

/-! ## Where the functions go -/

/-- Where the functions go from an entry of an upper table: they ask for 0 alone. -/
def Pte.leads (e : Pte) : Option Frame := if e = 0 then none else some e.address

/-- Where the functions get from `r` along a path. -/
def PageState.reach (s : PageState) (r : Frame) (p : List (BitVec 9)) : Option Frame :=
  follow Pte.leads s.mem r p

/-- The tables under `PML4`, each referenced once, with `kernel_pt` in its place. -/
structure TableTree (s : PageState) : Prop where
  tree : IsTree Pte.leads s.mem s.root 3
  kernel : s.walk s.root kernelPath = some s.kptFrame

theorem Pte.leads_of_next {e : Pte} {f : Frame} (h : e.next = some f) : e.leads = some f := by
  obtain ⟨hp, ha⟩ := Pte.next_eq_some.mp h
  rw [Pte.leads, if_neg (Pte.present_ne_zero hp), ha]

/-- The functions get wherever the processor does. -/
theorem reach_of_walk {s : PageState} {r f : Frame} {p : List (BitVec 9)}
    (h : s.walk r p = some f) : s.reach r p = some f := by
  unfold PageState.walk at h
  unfold PageState.reach
  induction p generalizing r with
  | nil => exact h
  | cons i p ih =>
    rw [follow_cons, Option.bind_eq_some_iff] at h
    obtain ⟨g, hg, hrest⟩ := h
    rw [follow_cons, Pte.leads_of_next hg]
    exact ih hrest

theorem reach_cons (s : PageState) (r : Frame) (i : BitVec 9) (p : List (BitVec 9)) :
    s.reach r (i :: p) = if s.mem r i = 0 then none else s.reach (s.mem r i).address p := by
  rw [PageState.reach, follow_cons, Pte.leads]
  split <;> rfl

theorem reach_concat (s : PageState) (r : Frame) (p : List (BitVec 9)) (i : BitVec 9) :
    s.reach r (p ++ [i]) = (s.reach r p).bind fun t => (s.mem t i).leads := follow_concat r p i

theorem reach_append {s : PageState} {r u : Frame} {p : List (BitVec 9)} (h : s.reach r p = some u)
    (q : List (BitVec 9)) : s.reach r (p ++ q) = s.reach u q := by
  rw [PageState.reach] at h
  rw [PageState.reach, follow_append, h]
  rfl

namespace TableTree

variable {s : PageState}

theorem onlyAt (h : TableTree s) {P : List (BitVec 9)} {t : Frame} (hP : P.length ≤ 3)
    (ht : s.reach s.root P = some t) : OnlyAt Pte.leads s.mem s.root 3 t P :=
  h.tree.onlyAt hP ht

/-- What the functions reach by one path, the processor does not reach by another. -/
theorem onlyAt_walk (h : TableTree s) {P : List (BitVec 9)} {t : Frame} (hP : P.length ≤ 3)
    (ht : s.reach s.root P = some t) : OnlyAt Pte.next s.mem s.root 3 t P :=
  fun q hq hqt => h.onlyAt hP ht q hq (reach_of_walk hqt)

/-- `kernel_pt` is reached in its place alone. -/
theorem path_kpt (h : TableTree s) {P : List (BitVec 9)} (hP : P.length ≤ 3)
    (ht : s.reach s.root P = some s.kptFrame) : P = kernelPath :=
  h.tree P kernelPath s.kptFrame hP (by decide) ht (reach_of_walk h.kernel)

/-- A table above the lowest level is not `kernel_pt`. -/
theorem upper_ne (h : TableTree s) {P : List (BitVec 9)} {t : Frame} (hP : P.length ≤ 2)
    (ht : s.reach s.root P = some t) : t ≠ s.kptFrame := by
  rintro rfl
  rw [h.path_kpt (by omega) ht] at hP
  exact absurd hP (by decide)

/-- Off the window's page an entry of a table is not the slot. -/
theorem not_slot (h : TableTree s) {P : List (BitVec 9)} {t : Frame} {i : BitVec 9}
    (hP : P.length ≤ 3) (ht : s.reach s.root P = some t) (hwin : P ++ [i] ≠ windowPath) :
    t ≠ s.kptFrame ∨ i ≠ 0 := by
  by_contra hcon
  rw [not_or, not_not, not_not] at hcon
  obtain ⟨rfl, rfl⟩ := hcon
  exact hwin (by rw [h.path_kpt hP ht]; rfl)

/-- A write to a table of the lowest level changes no way to a table. -/
theorem reach_put (h : TableTree s) {P : List (BitVec 9)} {t : Frame} (hP : P.length = 3)
    (ht : s.reach s.root P = some t) (i : BitVec 9) (e : Pte) {q : List (BitVec 9)}
    (hq : q.length ≤ 3) : (s.put t i e).reach s.root q = s.reach s.root q := by
  apply follow_setEntry_off (h.onlyAt (by omega) ht) (by omega)
  intro hpre
  have hlen := hpre.length_le
  rw [List.length_append, List.length_singleton] at hlen
  omega

theorem walk_put (h : TableTree s) {P : List (BitVec 9)} {t : Frame} (hP : P.length = 3)
    (ht : s.reach s.root P = some t) (i : BitVec 9) (e : Pte) {q : List (BitVec 9)}
    (hq : q.length ≤ 3) : (s.put t i e).walk s.root q = s.walk s.root q := by
  apply follow_setEntry_off (h.onlyAt_walk (by omega) ht) (by omega)
  intro hpre
  have hlen := hpre.length_le
  rw [List.length_append, List.length_singleton] at hlen
  omega

theorem put (h : TableTree s) {P : List (BitVec 9)} {t : Frame} (hP : P.length = 3)
    (ht : s.reach s.root P = some t) (i : BitVec 9) (e : Pte) : TableTree (s.put t i e) where
  tree := by
    intro p q f hp hq hpf hqf
    exact h.tree p q f hp hq ((h.reach_put hP ht i e hp).symm.trans hpf)
      ((h.reach_put hP ht i e hq).symm.trans hqf)
  kernel := (h.walk_put hP ht i e (by decide)).trans h.kernel

/-- It maps the pages of other entries as before. -/
theorem translate_put (h : TableTree s) {P : List (BitVec 9)} {t : Frame} (hP : P.length = 3)
    (ht : s.reach s.root P = some t) (i : BitVec 9) (e : Pte) {w : BitVec 64}
    (hw : pagePath w ≠ P ++ [i]) :
    (s.put t i e).translate s.root w = s.translate s.root w := by
  apply lookup_setEntry_off (h.onlyAt_walk (by omega) ht) (by simp [tablePath])
  intro hpre
  refine hw (hpre.eq_of_length_le ?_).symm
  simp [tablePath, hP]

/-- The closing of the window is such a write. -/
theorem closed (h : TableTree s) : TableTree s.closed := by
  have hput := h.put (P := kernelPath) rfl (reach_of_walk h.kernel) 0 0
  exact ⟨hput.tree, hput.kernel⟩

theorem walk_closed (h : TableTree s) {q : List (BitVec 9)} (hq : q.length ≤ 3) :
    s.closed.walk s.root q = s.walk s.root q :=
  h.walk_put (P := kernelPath) rfl (reach_of_walk h.kernel) 0 0 hq

theorem reach_closed (h : TableTree s) {q : List (BitVec 9)} (hq : q.length ≤ 3) :
    s.closed.reach s.root q = s.reach s.root q :=
  h.reach_put (P := kernelPath) rfl (reach_of_walk h.kernel) 0 0 hq

theorem translate_closed (h : TableTree s) {w : BitVec 64} (hw : pagePath w ≠ windowPath) :
    s.closed.translate s.root w = s.translate s.root w :=
  h.translate_put (P := kernelPath) rfl (reach_of_walk h.kernel) 0 0 hw

end TableTree

/-- An entry of an upper table is 0 or present, so the functions go where the processor goes. -/
def UpperPresent (s : PageState) : Prop :=
  ∀ p f i, p.length ≤ 2 → s.walk s.root p = some f → s.mem f i ≠ 0 → (s.mem f i).present = true

theorem UpperPresent.leads {s : PageState} (h : UpperPresent s) {p : List (BitVec 9)} {f : Frame}
    (i : BitVec 9) (hp : p.length ≤ 2) (hf : s.walk s.root p = some f) :
    (s.mem f i).leads = (s.mem f i).next := by
  by_cases h0 : s.mem f i = 0
  · rw [h0]
    rfl
  · rw [Pte.leads, if_neg h0, Pte.next_eq_some.mpr ⟨h p f i hp hf h0, rfl⟩]

theorem UpperPresent.reach {s : PageState} (h : UpperPresent s) {p : List (BitVec 9)}
    (hp : p.length ≤ 3) : s.reach s.root p = s.walk s.root p := by
  induction p using List.reverseRecOn with
  | nil => rfl
  | append_singleton p i ih =>
    rw [List.length_append, List.length_singleton] at hp
    rw [reach_concat, walk_concat, ih (by omega)]
    cases hf : s.walk s.root p with
    | none => rfl
    | some f => exact h.leads i (by omega) hf

theorem PageTree.tableTree {s : PageState} (h : PageTree s) (hup : UpperPresent s) :
    TableTree s where
  tree p q f hp hq hpf hqf :=
    h.tree p q f hp hq ((hup.reach hp).symm.trans hpf) ((hup.reach hq).symm.trans hqf)
  kernel := h.kernel

/-! ## The two walks, where no table is added -/

/-- The levels of `umount_page` from `table` on, for the rest of a path. -/
def umountWalk : BitVec 64 → List (BitVec 9) → PageProg (BitVec 64)
  | _, [] => pure 0
  | table, [i] => do
    mountPageT table
    let ret : Pte ← perform (.readEntry i)
    let h : Pte ← perform (.readEntry i)
    perform (.writeEntry i (h &&& 0xFFFFFFFFFFFFFFFE#64))
    umountPageT
    pure ret
  | table, i :: j :: is => do
    let p ← umountLevel table i
    if p = 0 then pure 0 else umountWalk p.base (j :: is)

theorem run_umountPage (log : BitVec 64) (s : PageState) :
    (umountPage log).run pageExec s = (umountWalk s.pml4 (pagePath log)).run pageExec s := rfl

/-- The state after the present bit of entry `i` of `t` was cleared. -/
def PageState.cleared (s : PageState) (t : Frame) (i : BitVec 9) : PageState :=
  (s.put t i (s.mem t i &&& 0xFFFFFFFFFFFFFFFE#64)).closed

theorem closed_put_closed (s : PageState) (f : Frame) (i : BitVec 9) (e : Pte) :
    (s.closed.put f i e).closed = (s.put f i e).closed := by
  show ({ s with mem := setEntry (setEntry (setEntry s.mem s.kptFrame 0 0) f i e) s.kptFrame 0 0,
                 intf := decide (s.sema = 0) } : PageState) = _
  rw [setEntry_slot]
  rfl

theorem run_umountLevel {s : PageState} {table : BitVec 64} {i : BitVec 9}
    (h : frameOf table ≠ s.kptFrame ∨ i ≠ 0) :
    (umountLevel table i).run pageExec s = (s.mem (frameOf table) i, s.closed) := by
  unfold umountLevel
  rw [Prog.run_bind, run_mountPageT]
  refine Prod.ext ?_ (setSlot_mounted s table)
  show (s.mounted table).mem (s.mounted table).window i = _
  rw [window_mounted, mounted_mem h]

/-- The end of `umount_page`. -/
theorem run_umountLast {s : PageState} {table : BitVec 64} {i : BitVec 9}
    (h : frameOf table ≠ s.kptFrame ∨ i ≠ 0) :
    (umountWalk table [i]).run pageExec s =
      (s.mem (frameOf table) i, s.cleared (frameOf table) i) := by
  have hread : (s.mounted table).mem (s.mounted table).window i = s.mem (frameOf table) i := by
    rw [window_mounted, mounted_mem h]
  rw [umountWalk, Prog.run_bind, run_mountPageT]
  refine Prod.ext hread ?_
  show PageState.setSlot ((s.mounted table).put (s.mounted table).window i
    ((s.mounted table).mem (s.mounted table).window i &&& 0xFFFFFFFFFFFFFFFE#64)) 0 = _
  rw [hread, window_mounted, mounted_put_setSlot]
  rfl

/-- What `umount_page` does from a table on: it comes to the end of the path, or to an empty
entry. -/
theorem run_umountWalk {is : List (BitVec 9)} {i : BitVec 9} {s : PageState}
    {P : List (BitVec 9)} {table : BitVec 64} (h : TableTree s) (hlen : P.length + is.length = 3)
    (hf : s.reach s.root P = some (frameOf table)) (hwin : P ++ is ++ [i] ≠ windowPath) :
    (umountWalk table (is ++ [i])).run pageExec s =
      (s.reach (frameOf table) is).elim (0, s.closed) fun t => (s.mem t i, s.cleared t i) := by
  induction is generalizing s P table with
  | nil =>
    rw [List.append_nil] at hwin
    exact run_umountLast (h.not_slot (by simpa using hlen.le) hf hwin)
  | cons k is ih =>
    obtain ⟨j, r, hrest⟩ := List.exists_cons_of_ne_nil (List.concat_ne_nil i is)
    simp only [List.length_cons] at hlen
    have hne : frameOf table ≠ s.kptFrame := h.upper_ne (by omega) hf
    have hrun : (umountWalk table (k :: is ++ [i])).run pageExec s =
        (if s.mem (frameOf table) k = 0 then pure 0
          else umountWalk (s.mem (frameOf table) k).base (is ++ [i])).run pageExec s.closed := by
      rw [List.cons_append, hrest, umountWalk, Prog.run_bind, run_umountLevel (Or.inl hne)]
    rw [hrun, reach_cons]
    by_cases h0 : s.mem (frameOf table) k = 0
    · rw [if_pos h0, if_pos h0]
      rfl
    · rw [if_neg h0, if_neg h0]
      have hnext : s.closed.reach s.root (P ++ [k]) =
          some (frameOf (s.mem (frameOf table) k).base) := by
        rw [h.reach_closed (by simp; omega), reach_concat, hf, frameOf_base, Option.bind_some,
          Pte.leads, if_neg h0]
      have hstep := ih (P := P ++ [k]) h.closed (by simp; omega) hnext (by simpa using hwin)
      rw [hstep, frameOf_base]
      -- the window was closed on the way: the tables and the entry are those of `s`
      have hsame : s.closed.reach (s.mem (frameOf table) k).address is =
          s.reach (s.mem (frameOf table) k).address is := by
        have hlong := h.reach_closed (q := P ++ [k] ++ is) (by simp; omega)
        have hbefore := (h.reach_closed (q := P ++ [k]) (by simp; omega)).symm.trans hnext
        rw [reach_append hnext, reach_append hbefore, frameOf_base] at hlong
        exact hlong
      rw [hsame]
      cases ht : s.reach (s.mem (frameOf table) k).address is with
      | none =>
        show ((0 : BitVec 64), s.closed.closed) = (0, s.closed)
        rw [closed_closed]
      | some t =>
        have hat : s.reach s.root (P ++ k :: is) = some t := by
          rw [reach_append hf, reach_cons, if_neg h0, ht]
        have hmem : s.closed.mem t i = s.mem t i :=
          closed_mem_other (h.not_slot (by simp; omega) hat hwin)
        show (s.closed.mem t i, (s.closed.put t i _).closed) = (s.mem t i, (s.put t i _).closed)
        rw [hmem, closed_put_closed]

/-- `mount_page_do` where the tables are there. -/
theorem run_mountWalk_found {is : List (BitVec 9)} {i : BitVec 9} {s : PageState}
    {P : List (BitVec 9)} {table : BitVec 64} {t : Frame} (ph : Pte) (h : TableTree s)
    (hlen : P.length + is.length = 3) (hf : s.reach s.root P = some (frameOf table))
    (ht : s.reach s.root (P ++ is) = some t) :
    (mountWalk ph table (is ++ [i])).run pageExec s = ((), (s.put t i ph).closed) := by
  induction is generalizing s P table with
  | nil =>
    rw [List.append_nil, hf] at ht
    cases ht
    exact run_mountLast table i ph s
  | cons k is ih =>
    obtain ⟨j, r, hrest⟩ := List.exists_cons_of_ne_nil (List.concat_ne_nil i is)
    simp only [List.length_cons] at hlen
    have hpath : P ++ k :: is = P ++ [k] ++ is := by simp
    obtain ⟨u, hu, -⟩ : ∃ u, s.reach s.root (P ++ [k]) = some u ∧ s.reach u is = some t :=
      follow_append_some (hpath ▸ ht)
    have hnext := hu
    rw [reach_concat, hf, Option.bind_some, Pte.leads] at hnext
    have h0 : s.mem (frameOf table) k ≠ 0 := by
      intro hh
      rw [if_pos hh] at hnext
      cases hnext
    rw [if_neg h0, ← frameOf_base] at hnext
    rw [List.cons_append, hrest, run_mountWalk_cons ph (h.upper_ne (by omega) hf) h0, ← hrest]
    have hclosed : s.closed.reach s.root (P ++ [k]) =
        some (frameOf (s.mem (frameOf table) k).base) := by
      rw [h.reach_closed (by simp; omega), hnext]
      exact hu
    have hend : s.closed.reach s.root (P ++ [k] ++ is) = some t := by
      rw [h.reach_closed (by simp; omega), ← hpath]
      exact ht
    rw [ih (P := P ++ [k]) h.closed (by simp; omega) hclosed hend, closed_put_closed]

/-! ## One page -/

/-- Every page but that of `v` is translated as before; the window, which every use leaves
closed, where it was closed. -/
def OthersKept (s s' : PageState) (v : BitVec 64) : Prop :=
  ∀ w, pagePath w ≠ pagePath v → (pagePath w = windowPath → s.slot.present = false) →
    s'.translate s'.root w = s.translate s.root w

/-- On the way to the page table of `v` there is an entry of 0. -/
def PageState.missesTable (s : PageState) (v : BitVec 64) : Prop :=
  ∃ p i t, (p ++ [i]) <+: tablePath v ∧ s.reach s.root p = some t ∧ s.mem t i = 0

/-- The way to a table ends before its end at an entry of 0. -/
theorem reach_eq_none {s : PageState} {r : Frame} {q : List (BitVec 9)} :
    s.reach r q = none ↔ ∃ p i t, (p ++ [i]) <+: q ∧ s.reach r p = some t ∧ s.mem t i = 0 := by
  induction q generalizing r with
  | nil =>
    refine iff_of_false (fun h => Option.some_ne_none _ h) ?_
    rintro ⟨p, i, t, hpre, -⟩
    exact absurd hpre.length_le (by simp)
  | cons k q ih =>
    rw [reach_cons]
    by_cases h0 : s.mem r k = 0
    · rw [if_pos h0]
      exact iff_of_true rfl ⟨[], k, r, ⟨q, rfl⟩, rfl, h0⟩
    · rw [if_neg h0, ih]
      constructor
      · rintro ⟨p, i, t, hpre, ht, hi⟩
        refine ⟨k :: p, i, t, List.prefix_cons_inj k |>.mpr hpre, ?_, hi⟩
        rw [reach_cons, if_neg h0]
        exact ht
      · rintro ⟨p, i, t, hpre, ht, hi⟩
        cases p with
        | nil =>
          cases ht
          obtain ⟨u, hu⟩ := hpre
          cases (List.cons.inj hu).1
          exact absurd hi h0
        | cons k' p =>
          have hk : k' = k := (List.cons_prefix_cons.mp hpre).1
          subst hk
          rw [reach_cons, if_neg h0] at ht
          exact ⟨p, i, t, (List.cons_prefix_cons.mp hpre).2, ht, hi⟩

/-- An entry with its present bit cleared. -/
theorem cleared_next (e : Pte) : (e &&& 0xFFFFFFFFFFFFFFFE#64 : Pte).next = none := by
  have hbit : (0xFFFFFFFFFFFFFFFE#64).getLsbD 0 = false := by decide
  rw [Pte.next_eq_none, Pte.present, BitVec.getLsbD_and, hbit, Bool.and_false]

section

variable {s : PageState} {v : BitVec 64} {t : Frame}

theorem put_closed_tree (h : TableTree s) (ht : s.reach s.root (tablePath v) = some t) (e : Pte) :
    TableTree (s.put t (linearIndex 0 v) e).closed :=
  (h.put (P := tablePath v) rfl ht _ e).closed

/-- A write to the entry of a page leaves every other page as it is. -/
theorem put_closed_others (h : TableTree s) (ht : s.reach s.root (tablePath v) = some t) (e : Pte) :
    OthersKept s (s.put t (linearIndex 0 v) e).closed v := by
  intro w hw hslot
  have hput := h.put (P := tablePath v) rfl ht (linearIndex 0 v) e
  by_cases hwin : pagePath w = windowPath
  · have hafter := translate_slot hput.closed.kernel hwin
    have hempty : (s.put t (linearIndex 0 v) e).closed.slot = 0 := setEntry_same _ _ _ _
    rw [hempty] at hafter
    rw [translate_slot h.kernel hwin, hslot hwin]
    exact hafter
  · exact (hput.translate_closed hwin).trans (h.translate_put (P := tablePath v) rfl ht _ e hw)

/-- The entry of the page, written. -/
theorem put_closed_translate (h : TableTree s) (hwalk : s.walk s.root (tablePath v) = some t)
    (hv : pagePath v ≠ windowPath) (e : Pte) :
    (s.put t (linearIndex 0 v) e).closed.translate s.root v = e.next.map fun _ => e := by
  have ht := reach_of_walk hwalk
  have hput := h.put (P := tablePath v) rfl ht (linearIndex 0 v) e
  refine (hput.translate_closed hv).trans ?_
  show lookup Pte.next _ s.root (tablePath v) (linearIndex 0 v) = _
  have hsame : follow Pte.next (s.put t (linearIndex 0 v) e).mem s.root (tablePath v) = some t :=
    (h.walk_put (P := tablePath v) rfl ht _ e (by simp [tablePath])).trans hwalk
  rw [lookup, hsame, Option.bind_some]
  have hat : (s.put t (linearIndex 0 v) e).mem t (linearIndex 0 v) = e := setEntry_same _ _ _ _
  rw [hat]

/-- Where the processor does not get to the table of a page, the page is not mapped. -/
theorem put_closed_unmapped (h : TableTree s) (ht : s.reach s.root (tablePath v) = some t)
    (hwalk : s.walk s.root (tablePath v) = none) (e : Pte) (hv : pagePath v ≠ windowPath) :
    (s.put t (linearIndex 0 v) e).closed.translate s.root v = none := by
  have hput := h.put (P := tablePath v) rfl ht (linearIndex 0 v) e
  refine (hput.translate_closed hv).trans ?_
  have hsame : follow Pte.next (s.put t (linearIndex 0 v) e).mem s.root (tablePath v) = none :=
    (h.walk_put (P := tablePath v) rfl ht _ e (by simp [tablePath])).trans hwalk
  show lookup Pte.next _ s.root (tablePath v) (linearIndex 0 v) = _
  rw [lookup, hsame]
  rfl

/-- Closing the window leaves every page as it is. -/
theorem closed_others (h : TableTree s) (v : BitVec 64) : OthersKept s s.closed v := by
  intro w _ hslot
  by_cases hwin : pagePath w = windowPath
  · have hafter := translate_slot h.closed.kernel hwin
    rw [show s.closed.slot = 0 from setEntry_same _ _ _ _] at hafter
    rw [translate_slot h.kernel hwin, hslot hwin]
    exact hafter
  · exact h.translate_closed hwin

theorem OthersKept.trans {s' s'' : PageState} (h : OthersKept s s' v) (h' : OthersKept s' s'' v)
    (hslot : s'.slot = 0) : OthersKept s s'' v := by
  intro w hw hwin
  refine (h' w hw fun _ => ?_).trans (h w hw hwin)
  rw [hslot]
  rfl

/-- A mapped page has its table, and the entry it is mapped by is there. -/
theorem mapsTo_table {f : Frame} (hf : s.mapsTo v f) :
    ∃ t, s.walk s.root (tablePath v) = some t ∧ (s.mem t (linearIndex 0 v)).address = f ∧
      (s.mem t (linearIndex 0 v)).present = true := by
  obtain ⟨e, he, rfl⟩ := hf
  obtain ⟨t, ht, rfl, hsome⟩ := lookup_eq_some.mp he
  obtain ⟨g, hg⟩ := Option.isSome_iff_exists.mp hsome
  exact ⟨t, ht, rfl, (Pte.next_eq_some.mp hg).1⟩

/-- `umount_page` by what it finds: no table, or the entry of the page. -/
theorem run_umountPage_eq (h : TableTree s) (hv : pagePath v ≠ windowPath) :
    (umountPage v).run pageExec s =
      (s.reach s.root (tablePath v)).elim (0, s.closed)
        fun t => (s.mem t (linearIndex 0 v), s.cleared t (linearIndex 0 v)) := by
  have hrun := @run_umountWalk (tablePath v) (linearIndex 0 v) s [] s.pml4 h rfl rfl hv
  rw [run_umountPage, pagePath_eq, hrun]
  rfl

/-- The page is unmapped, and what it was mapped by comes back. -/
theorem umountPage_unmaps (h : TableTree s) (hv : pagePath v ≠ windowPath) :
    ((umountPage v).run pageExec s).2.translate s.root v = none ∧
      OthersKept s ((umountPage v).run pageExec s).2 v ∧
      ((umountPage v).run pageExec s).2.slot = 0 ∧
      ∀ e, s.translate s.root v = some e → ((umountPage v).run pageExec s).1 = e := by
  rw [run_umountPage_eq h hv]
  cases ht : s.reach s.root (tablePath v) with
  | none =>
    have hunmapped : s.translate s.root v = none := by
      cases hwalk : follow Pte.next s.mem s.root (tablePath v) with
      | none =>
        show lookup Pte.next s.mem s.root (tablePath v) (linearIndex 0 v) = none
        rw [lookup, hwalk]
        rfl
      | some t =>
        rw [reach_of_walk hwalk] at ht
        cases ht
    refine ⟨(h.translate_closed hv).trans hunmapped, closed_others h v, setEntry_same _ _ _ _, ?_⟩
    intro e he
    rw [hunmapped] at he
    cases he
  | some t =>
    refine ⟨?_, put_closed_others h ht _, setEntry_same _ _ _ _, ?_⟩
    · cases hwalk : s.walk s.root (tablePath v) with
      | none => exact put_closed_unmapped h ht hwalk _ hv
      | some t' =>
        have hsame := reach_of_walk hwalk
        rw [ht] at hsame
        cases hsame
        refine (put_closed_translate h hwalk hv _).trans ?_
        rw [cleared_next]
        rfl
    · intro e he
      obtain ⟨t', hwalk, rfl, -⟩ := lookup_eq_some.mp he
      have hsame := reach_of_walk hwalk
      rw [ht] at hsame
      cases hsame
      rfl

end

/-- What `umount_page` is to do, from `s` to `s'` with the result `ret`: the page of `v` is unmapped
and no other changes. Where a table is missing the result is 0 and no entry changes, that of the
window aside; otherwise it is the entry as it was. `mount_page` with the result maps the page to
its frame again. -/
structure Umounted (s : PageState) (v ret : BitVec 64) (s' : PageState) : Prop where
  unmapped : s'.translate s'.root v = none
  others : OthersKept s s' v
  missing : s.missesTable v → ret = 0 ∧
    ∀ f i, (f = s.kptFrame ∧ i = 0 → s.slot = 0) → s'.mem f i = s.mem f i
  entry : ¬ s.missesTable v → ∃ t, s.reach s.root (tablePath v) = some t ∧
    ret = s.mem t (linearIndex 0 v)
  again : ∀ f, s.mapsTo v f → ∃ s'', (mountPage ret v).run pageExec s' = ((), s'') ∧
    (∃ e, s''.translate s''.root v = some e ∧ e.address = f ∧ e.present = true ∧
      e.writable = true) ∧
    OthersKept s s'' v

/-- `umount_page` is exact, and `mount_page` takes it back. -/
theorem umount_page_exact {s : PageState} (h : TableTree s) {v : BitVec 64}
    (hv : pagePath v ≠ windowPath) :
    Umounted s v ((umountPage v).run pageExec s).1 ((umountPage v).run pageExec s).2 := by
  obtain ⟨hunmapped, hothers, -, -⟩ := umountPage_unmaps h hv
  have hmiss : s.missesTable v ↔ s.reach s.root (tablePath v) = none := reach_eq_none.symm
  rw [run_umountPage_eq h hv] at hunmapped hothers ⊢
  cases ht : s.reach s.root (tablePath v) with
  | none =>
    rw [ht] at hunmapped hothers
    refine ⟨hunmapped, hothers, ?_, ?_, ?_⟩
    · intro _
      refine ⟨rfl, fun f i hslot => ?_⟩
      by_cases hat : f = s.kptFrame ∧ i = 0
      · obtain ⟨rfl, rfl⟩ := hat
        exact (setEntry_same s.mem s.kptFrame 0 0).trans (hslot ⟨rfl, rfl⟩).symm
      · exact setEntry_other hat
    · intro hne
      exact absurd (hmiss.mpr ht) hne
    · intro f hf
      obtain ⟨t, hwalk, -, -⟩ := mapsTo_table hf
      rw [reach_of_walk hwalk] at ht
      cases ht
  | some t =>
    rw [ht] at hunmapped hothers
    refine ⟨hunmapped, hothers, ?_, fun _ => ⟨t, ht, rfl⟩, ?_⟩
    · intro hmissing
      rw [hmiss.mp hmissing] at ht
      cases ht
    · intro f hf
      obtain ⟨t', hwalk, haddr, hpresent⟩ := mapsTo_table hf
      have hsame := reach_of_walk hwalk
      rw [ht] at hsame
      cases hsame
      -- behind `umount_page` the tables are where they were
      have hclear := put_closed_tree h ht (s.mem t (linearIndex 0 v) &&& 0xFFFFFFFFFFFFFFFE#64)
      have hput := h.put (P := tablePath v) rfl ht (linearIndex 0 v)
        (s.mem t (linearIndex 0 v) &&& 0xFFFFFFFFFFFFFFFE#64)
      have hwalk' : (s.cleared t (linearIndex 0 v)).walk s.root (tablePath v) = some t :=
        (hput.walk_closed (by simp [tablePath])).trans
          ((h.walk_put (P := tablePath v) rfl ht _ _ (by simp [tablePath])).trans hwalk)
      have hmount := @run_mountWalk_found (tablePath v) (linearIndex 0 v) _ [] s.pml4 t
        (calcPage (s.mem t (linearIndex 0 v))) hclear rfl rfl (reach_of_walk hwalk')
      obtain ⟨hframe, hpres, hwrite⟩ := calcPage_spec (s.mem t (linearIndex 0 v))
      refine ⟨_, hmount, ⟨calcPage (s.mem t (linearIndex 0 v)), ?_, ?_, hpres, hwrite⟩, ?_⟩
      · refine (put_closed_translate hclear hwalk' hv _).trans ?_
        rw [Pte.next_eq_some.mpr ⟨hpres, rfl⟩]
        rfl
      · rw [hframe]
        exact haddr
      · exact (put_closed_others h ht _).trans
          (put_closed_others hclear (reach_of_walk hwalk') _) (setEntry_same _ _ _ _)

/-! ## On the small machine -/

theorem tableOf_present (i : BitVec 9) (phys : BitVec 64) {j : BitVec 9}
    (h : tableOf i (calcPage phys) j ≠ 0) : (tableOf i (calcPage phys) j).present = true := by
  unfold tableOf at h ⊢
  by_cases hj : j = i
  · rw [if_pos hj]
    exact (calcPage_spec phys).2.1
  · rw [if_neg hj] at h
    exact absurd rfl h

theorem pageInit_upperPresent {last : BitVec 64} (h : LastPage last) (s : PageState) :
    UpperPresent (pageInit last s) := by
  obtain ⟨hpml4, hpdp, hpd⟩ := pageInit_tables h s
  intro p f i hp hf h0
  rcases tableChain_walk (pageInit_chain h s) (by omega) hf with
    ⟨-, rfl⟩ | ⟨-, rfl⟩ | ⟨-, rfl⟩ | ⟨rfl, -⟩
  · rw [pageInit_root] at h0 ⊢
    rw [hpml4] at h0 ⊢
    exact tableOf_present _ _ h0
  · rw [hpdp] at h0 ⊢
    exact tableOf_present _ _ h0
  · rw [hpd] at h0 ⊢
    exact tableOf_present _ _ h0
  · exact absurd hp (by decide)

theorem bootState_upperPresent (junk : Page) : UpperPresent (bootState junk) := by
  unfold bootState
  exact pageInit_upperPresent bootLast _

/-- The text buffer of the screen, unmapped and mapped again. -/
theorem umount_page_exact_screen :
    Umounted (bootState fun _ => 0) 0xFFFFFFFFC00B8000#64
      ((umountPage 0xFFFFFFFFC00B8000#64).run pageExec (bootState fun _ => 0)).1
      ((umountPage 0xFFFFFFFFC00B8000#64).run pageExec (bootState fun _ => 0)).2 :=
  umount_page_exact ((bootState_tree _).tableTree (bootState_upperPresent _)) (by decide)

end OS64.Mm
