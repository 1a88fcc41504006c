import OS64.Mm.PageRun

/-!
# A walk that adds the tables it misses

`mount_page_do` goes down four levels and hangs a new frame wherever it finds an
entry empty. Whatever that frame holds becomes a table as it stands: nothing
clears it. `mountMeets` says what this comes to for a path: where the walk finds
its way, present entries; where it does not, frames that `ok` accepts as tables.
With `harmless` for `ok` the walk changes the translation of its own page alone.

The tree under `PML4` is `PageTree`: each table reached by one path, none of them
free, and `kernel_pt` in its place. Its window, entry 0 of `kernel_pt`, is the one
page the functions here always unmap.
-/

namespace OS64.Mm

open OS64.Lib

/-! ## Trees of page tables -/

/-- The frame of `PML4`. -/
def PageState.root (s : PageState) : Frame := frameOf s.pml4

/-- Where the processor gets from `r` along a path. -/
def PageState.walk (s : PageState) (r : Frame) (p : List (BitVec 9)) : Option Frame :=
  follow Pte.next s.mem r p

/-- The present entry at the end of a path. -/
def PageState.look (s : PageState) (r : Frame) (p : List (BitVec 9)) (i : BitVec 9) : Option Pte :=
  lookup Pte.next s.mem r p i

/-- The tables under `PML4`. -/
structure PageTree (s : PageState) : Prop where
  tree : IsTree Pte.next s.mem s.root 3
  taken : ∀ p f, p.length ≤ 3 → s.walk s.root p = some f → ¬ s.free f
  kernel : s.walk s.root kernelPath = some s.kptFrame

@[simp] theorem closed_root (s : PageState) : s.closed.root = s.root := rfl

@[simp] theorem alloc_root (s : PageState) : s.alloc.root = s.root := rfl

@[simp] theorem put_root (s : PageState) (f : Frame) (i : BitVec 9) (e : Pte) :
    (s.put f i e).root = s.root := rfl

@[simp] theorem closed_free (s : PageState) (f : Frame) : s.closed.free f ↔ s.free f := Iff.rfl

@[simp] theorem put_free (s : PageState) (f g : Frame) (i : BitVec 9) (e : Pte) :
    (s.put f i e).free g ↔ s.free g := Iff.rfl

theorem alloc_free {s : PageState} (h : s.allocAddr ≠ 0) {g : Frame} (hg : s.alloc.free g) :
    s.free g := by
  obtain ⟨f, -, -, -, hfree⟩ := alloc_spec h
  exact ((hfree g).mp hg).1

namespace PageTree

variable {s : PageState}

/-- `kernel_pt` is reached in its place alone. -/
theorem kernel_onlyAt (h : PageTree s) : OnlyAt Pte.next s.mem s.root 3 s.kptFrame kernelPath :=
  h.tree.onlyAt (by decide) h.kernel

/-- A table above the lowest level is not `kernel_pt`. -/
theorem upper_ne (h : PageTree s) {p : List (BitVec 9)} {f : Frame} (hp : p.length ≤ 2)
    (hf : s.walk s.root p = some f) : f ≠ s.kptFrame := by
  rintro rfl
  have heq := h.kernel_onlyAt p (by omega) hf
  rw [heq] at hp
  exact absurd hp (by decide)

/-- No free frame is `kernel_pt`. -/
theorem free_ne (h : PageTree s) {f : Frame} (hf : s.free f) : f ≠ s.kptFrame := by
  rintro rfl
  exact h.taken kernelPath _ (by decide) h.kernel hf

/-- Closing the window changes no walk to a table. -/
theorem walk_closed (h : PageTree s) {q : List (BitVec 9)} (hq : q.length ≤ 3) :
    s.closed.walk s.root q = s.walk s.root q := by
  apply follow_setEntry_off h.kernel_onlyAt (by omega)
  intro hpre
  have hlen := hpre.length_le
  simp only [kernelPath, List.length_append, List.length_cons, List.length_nil] at hlen
  omega

theorem look_closed (h : PageTree s) {q : List (BitVec 9)} {j : BitVec 9} (hq : q.length ≤ 3)
    (hwin : q ++ [j] ≠ windowPath) : s.closed.look s.root q j = s.look s.root q j := by
  apply lookup_setEntry_off h.kernel_onlyAt hq
  intro hpre
  refine hwin (hpre.eq_of_length_le ?_).symm
  simp only [kernelPath, List.length_append, List.length_cons, List.length_nil]
  omega

theorem closed (h : PageTree s) : PageTree s.closed where
  tree := by
    intro p q f hp hq hpf hqf
    have hp' := h.walk_closed hp
    have hq' := h.walk_closed hq
    exact h.tree p q f hp hq (hp'.symm.trans hpf) (hq'.symm.trans hqf)
  taken p f hp hf := h.taken p f hp ((h.walk_closed hp).symm.trans hf)
  kernel := (h.walk_closed (by decide)).trans h.kernel

theorem alloc (h : PageTree s) (hok : s.allocAddr ≠ 0) : PageTree s.alloc where
  tree := h.tree
  taken p f hp hf hfree := h.taken p f hp hf (alloc_free hok hfree)
  kernel := h.kernel

variable {P : List (BitVec 9)} {f g : Frame} {i : BitVec 9} {e : Pte}

/-- The walks to the tables after a fresh table is hung where an upper table has an empty
entry. -/
theorem walk_link (h : PageTree s) (hP : P.length ≤ 2) (hf : s.walk s.root P = some f)
    (he : e.next = some g) (hgf : g ≠ f) (hg : P.length < 2 → Barren Pte.next s.mem g)
    {q : List (BitVec 9)} (hq : q.length ≤ 3) :
    (s.put f i e).walk s.root q =
      if q = P ++ [i] then some g else if (P ++ [i]) <+: q then none else s.walk s.root q := by
  refine follow_link (h.tree.onlyAt (by omega) hf) (by omega) hf he hgf (by omega) ?_
  intro j r hqeq
  have hlen : q.length = P.length + (r.length + 2) := by simp [hqeq]
  exact hg (by omega) j

theorem link (h : PageTree s) (hP : P.length ≤ 2) (hf : s.walk s.root P = some f)
    (hnone : (s.mem f i).next = none) (he : e.next = some g)
    (hfresh : ∀ q, q.length ≤ 3 → s.walk s.root q ≠ some g) (htaken : ¬ s.free g)
    (hg : P.length < 2 → Barren Pte.next s.mem g) : PageTree (s.put f i e) where
  tree := isTree_link h.tree (by omega) hf he hfresh fun hlt => hg (by omega)
  taken := by
    intro q u hq hu
    have hgf : g ≠ f := fun hh => hfresh P (by omega) (by rw [hf, hh])
    rw [put_root, h.walk_link hP hf he hgf hg hq] at hu
    by_cases hat : q = P ++ [i]
    · rw [if_pos hat] at hu
      cases hu
      exact htaken
    · rw [if_neg hat] at hu
      by_cases hpre : (P ++ [i]) <+: q
      · rw [if_pos hpre] at hu
        cases hu
      · rw [if_neg hpre] at hu
        exact h.taken q u hq hu
  kernel := follow_setEntry_over hnone h.kernel

end PageTree

/-! ## What taking the missing tables does -/

/-- From `s` to `s'` only the page at the path `path` and the window have changed their
translation, tables have been added from the free frames, and nothing else was written
than tables, frames that were free and the slot. -/
structure Grown (path : List (BitVec 9)) (s s' : PageState) : Prop where
  tree : PageTree s'
  pml4 : s'.pml4 = s.pml4
  kernelPt : s'.kernelPt = s.kernelPt
  off : ∀ q j, q.length = 3 → q ++ [j] ≠ path → q ++ [j] ≠ windowPath →
    s'.look s.root q j = s.look s.root q j
  free : ∀ g, s'.free g → s.free g
  kept : ∀ q f, q.length ≤ 3 → s.walk s.root q = some f → s'.walk s.root q = some f
  tables : ∀ q f, q.length ≤ 3 → s'.walk s.root q = some f → s.walk s.root q = some f ∨ s.free f
  frame : ∀ f, ¬ s.free f → (∀ q, q.length ≤ 3 → s.walk s.root q ≠ some f) → s'.mem f = s.mem f

namespace Grown

variable {path : List (BitVec 9)} {s s' s'' : PageState}

theorem root (h : Grown path s s') : s'.root = s.root := congrArg frameOf h.pml4

theorem trans (h : Grown path s s') (h' : Grown path s' s'') : Grown path s s'' where
  tree := h'.tree
  pml4 := h'.pml4.trans h.pml4
  kernelPt := h'.kernelPt.trans h.kernelPt
  off q j hq hpath hwin := by
    rw [← h.off q j hq hpath hwin, ← h.root]
    exact h'.off q j hq hpath hwin
  free g hg := h.free g (h'.free g hg)
  kept q f hq hf := by
    have h₁ := h.kept q f hq hf
    rw [← h.root] at h₁ ⊢
    exact h'.kept q f hq h₁
  tables q f hq hf := by
    rw [← h.root] at hf
    rcases h'.tables q f hq hf with h₁ | h₁
    · rw [h.root] at h₁
      exact h.tables q f hq h₁
    · exact Or.inr (h.free f h₁)
  frame f hfree hout := by
    rw [← h.frame f hfree hout]
    apply h'.frame f fun hh => hfree (h.free f hh)
    intro q hq hf
    rw [h.root] at hf
    rcases h.tables q f hq hf with h₁ | h₁
    · exact hout q hq h₁
    · exact hfree h₁

end Grown

/-- The window closed, nothing more. -/
theorem grown_closed {s : PageState} (h : PageTree s) (path : List (BitVec 9)) :
    Grown path s s.closed where
  tree := h.closed
  pml4 := rfl
  kernelPt := rfl
  off _ _ hq _ hwin := h.look_closed (by omega) hwin
  free _ hg := hg
  kept _ _ hq hf := (h.walk_closed hq).trans hf
  tables _ _ hq hf := Or.inl ((h.walk_closed hq).symm.trans hf)
  frame f _ hout := setEntry_frame fun hh => hout kernelPath (by decide) (by rw [h.kernel, hh])

/-- A frame `p` that does no harm as a table for the rest of a path: no other entry is
present and, above the lowest level, that of the path is empty. -/
def harmless (p : Page) : List (BitVec 9) → Prop
  | [] => True
  | j :: r => (∀ k, k ≠ j → (p k).present = false) ∧ (r ≠ [] → p j = 0)

theorem newTable_next (s : PageState) (ph : Pte) :
    (s.newTable ph).next = some (frameOf s.allocAddr) := by
  rw [PageState.newTable, Pte.next_setR3, Pte.next_pteOf _ (by decide)]

/-- A new table that does no harm, hung into the tree. -/
theorem grown_link {s : PageState} (h : PageTree s) (hok : s.allocAddr ≠ 0)
    {P rest : List (BitVec 9)} {f : Frame} {i : BitVec 9} (ph : Pte)
    (hlen : P.length + rest.length = 3) (hP : P.length ≤ 2) (hf : s.walk s.root P = some f)
    (hnone : (s.mem f i).next = none) (hharm : harmless (s.mem (frameOf s.allocAddr)) rest) :
    Grown (P ++ i :: rest) s (s.alloc.put f i (s.newTable ph)) := by
  obtain ⟨g, hfree, haddr, -, hafter⟩ := alloc_spec hok
  have hg : frameOf s.allocAddr = g := by rw [haddr, frameOf_frameAddr]
  have he : (s.newTable ph).next = some g := by rw [newTable_next, hg]
  rw [hg] at hharm
  have hfresh : ∀ q, q.length ≤ 3 → s.walk s.root q ≠ some g :=
    fun q hq hh => h.taken q g hq hh hfree
  have hgf : g ≠ f := fun hh => hfresh P (by omega) (by rw [hf, hh])
  -- Above the lowest level the rest of the path has a table more to go, so the entry of
  -- the path is empty too.
  have hbarren : P.length < 2 → Barren Pte.next s.mem g := by
    intro hlt k
    rcases rest with _ | ⟨j, r⟩
    · simp at hlen
      omega
    · by_cases hk : k = j
      · have hr : r ≠ [] := by
          rintro rfl
          simp at hlen
          omega
        rw [hk, hharm.2 hr, Pte.next_zero]
      · exact Pte.next_eq_none.mpr (hharm.1 k hk)
  have hwalk : ∀ {q : List (BitVec 9)}, q.length ≤ 3 →
      (s.put f i (s.newTable ph)).walk s.root q =
        if q = P ++ [i] then some g else if (P ++ [i]) <+: q then none else s.walk s.root q :=
    fun hq => h.walk_link hP hf he hgf hbarren hq
  refine ⟨(h.alloc hok).link hP hf hnone he hfresh (fun hh => ((hafter g).mp hh).2 rfl) hbarren,
    rfl, rfl, ?_, fun u hu => alloc_free hok hu, ?_, ?_, ?_⟩
  · intro q j hq hpath _
    refine lookup_link (h.tree.onlyAt (by omega) hf) (by omega) hf he hgf hnone (by omega) ?_ ?_
    · intro hat
      have hl := congrArg List.length hat
      simp only [List.length_append, List.length_singleton] at hl
      omega
    · intro k r hqeq
      rcases rest with _ | ⟨j', r'⟩
      · simp at hlen
        omega
      · by_cases hk : k = j'
        · have hr : r' ≠ [] := by
            rintro rfl
            have hl := congrArg List.length hqeq
            simp only [List.length_append, List.length_cons, List.length_nil] at hl hlen
            have hr0 : r = [] := List.length_eq_zero_iff.mp (by omega)
            exact hpath (by rw [hqeq, hk, hr0])
          rw [hk, hharm.2 hr, Pte.next_zero]
        · exact Pte.next_eq_none.mpr (hharm.1 k hk)
  · intro q u hq hu
    exact follow_setEntry_over hnone hu
  · intro q u hq hu
    have hu' := (hwalk hq).symm.trans hu
    by_cases hat : q = P ++ [i]
    · rw [if_pos hat] at hu'
      cases hu'
      exact Or.inr hfree
    · rw [if_neg hat] at hu'
      by_cases hpre : (P ++ [i]) <+: q
      · rw [if_pos hpre] at hu'
        cases hu'
      · rw [if_neg hpre] at hu'
        exact Or.inl hu'
  · intro u _ hout
    exact setEntry_frame fun hh => hout P (by omega) (by rw [hf, hh])

/-! ## The whole walk -/

/-- The levels of `mount_page_do` from `table` on, for the rest of a path. -/
def mountWalk (ph : Pte) : BitVec 64 → List (BitVec 9) → PageProg Unit
  | _, [] => pure ()
  | table, [i] => do
    mountPageT table
    perform (.writeEntry i ph)
    umountPageT
  | table, i :: j :: is => do
    let p ← mountLevel table i ph
    mountWalk ph p.base (j :: is)

theorem run_mountPageDo (log : BitVec 64) (ph : Pte) (s : PageState) :
    (mountPageDo log ph).run pageExec s = (mountWalk ph s.pml4 (pagePath log)).run pageExec s := rfl

theorem allocsOk_mountPageDo (log : BitVec 64) (ph : Pte) (s : PageState) :
    AllocsOk (mountPageDo log ph) s ↔ AllocsOk (mountWalk ph s.pml4 (pagePath log)) s := by
  show True ∧ _ ↔ _
  exact and_iff_right trivial

/-- A level where the walk finds its way. -/
theorem run_mountWalk_cons {s : PageState} {table : BitVec 64} {i j : BitVec 9}
    {is : List (BitVec 9)} (ph : Pte) (hne : frameOf table ≠ s.kptFrame)
    (h0 : s.mem (frameOf table) i ≠ 0) :
    (mountWalk ph table (i :: j :: is)).run pageExec s =
      (mountWalk ph (s.mem (frameOf table) i).base (j :: is)).run pageExec s.closed := by
  rw [mountWalk, Prog.run_bind, run_mountLevel (Or.inl hne), if_neg h0]

theorem allocsOk_mountWalk_cons {s : PageState} {table : BitVec 64} {i j : BitVec 9}
    {is : List (BitVec 9)} (ph : Pte) (hne : frameOf table ≠ s.kptFrame)
    (h0 : s.mem (frameOf table) i ≠ 0) :
    AllocsOk (mountWalk ph table (i :: j :: is)) s ↔
      AllocsOk (mountWalk ph (s.mem (frameOf table) i).base (j :: is)) s.closed := by
  rw [mountWalk, AllocsOk, Prog.always_bind, run_mountLevel (Or.inl hne), if_neg h0]
  exact and_iff_right ((allocsOk_mountLevel (Or.inl hne)).mpr fun hh => absurd hh h0)

/-- A level where it misses a table. -/
theorem run_mountWalk_new {s : PageState} {table : BitVec 64} {i j : BitVec 9}
    {is : List (BitVec 9)} (ph : Pte) (hne : frameOf table ≠ s.kptFrame)
    (h0 : s.mem (frameOf table) i = 0) :
    (mountWalk ph table (i :: j :: is)).run pageExec s =
      (mountWalk ph (s.newTable ph).base (j :: is)).run pageExec (s.linked (frameOf table) i ph) := by
  rw [mountWalk, Prog.run_bind, run_mountLevel (Or.inl hne), if_pos h0]

theorem allocsOk_mountWalk_new {s : PageState} {table : BitVec 64} {i j : BitVec 9}
    {is : List (BitVec 9)} (ph : Pte) (hne : frameOf table ≠ s.kptFrame)
    (h0 : s.mem (frameOf table) i = 0) (h : AllocsOk (mountWalk ph table (i :: j :: is)) s) :
    s.allocAddr ≠ 0 := by
  rw [mountWalk, AllocsOk, Prog.always_bind] at h
  exact (allocsOk_mountLevel (Or.inl hne)).mp h.1 h0

/-- The frames that are taken for tables, one after the other, for the rest of a path: there
is one each time, and `ok` accepts it. -/
def newTables (ok : Page → List (BitVec 9) → Prop) (s : PageState) : List (BitVec 9) → Prop
  | [] => True
  | i :: is => s.allocAddr ≠ 0 ∧ ok (s.mem (frameOf s.allocAddr)) (i :: is) ∧ newTables ok s.alloc is

/-- What the walk along a path meets: present entries, and from the first empty one on new
tables that `ok` accepts. -/
def mountMeets (ok : Page → List (BitVec 9) → Prop) (s : PageState) : Frame → List (BitVec 9) → Prop
  | f, i :: j :: is =>
    if s.mem f i = 0 then newTables ok s (j :: is)
    else (s.mem f i).present = true ∧ mountMeets ok s (s.mem f i).address (j :: is)
  | _, _ => True

instance decideHarmless (p : Page) : (is : List (BitVec 9)) → Decidable (harmless p is)
  | [] => .isTrue trivial
  | j :: r => inferInstanceAs (Decidable ((∀ k, k ≠ j → (p k).present = false) ∧ (r ≠ [] → p j = 0)))

instance decideNewTables (s : PageState) : (is : List (BitVec 9)) → Decidable (newTables harmless s is)
  | [] => .isTrue trivial
  | i :: is =>
    have := decideNewTables s.alloc is
    inferInstanceAs (Decidable (s.allocAddr ≠ 0 ∧ harmless (s.mem (frameOf s.allocAddr)) (i :: is) ∧
      newTables harmless s.alloc is))

instance decideMountMeets (s : PageState) : (f : Frame) → (is : List (BitVec 9)) →
    Decidable (mountMeets harmless s f is)
  | _, [] | _, [_] => .isTrue trivial
  | f, i :: j :: is =>
    have := decideMountMeets s (s.mem f i).address (j :: is)
    inferInstanceAs (Decidable (if s.mem f i = 0 then newTables harmless s (j :: is)
      else (s.mem f i).present = true ∧ mountMeets harmless s (s.mem f i).address (j :: is)))

theorem mountMeets_present {ok : Page → List (BitVec 9) → Prop} {s : PageState} {f : Frame}
    {i j : BitVec 9} {is : List (BitVec 9)} (hp : (s.mem f i).present = true) :
    mountMeets ok s f (i :: j :: is) ↔ mountMeets ok s (s.mem f i).address (j :: is) := by
  rw [mountMeets, if_neg (Pte.present_ne_zero hp)]
  exact and_iff_right hp

/-- New tables depend on the free frames and the bitmap. -/
theorem newTables_congr {ok : Page → List (BitVec 9) → Prop} {is : List (BitVec 9)} {s s' : PageState}
    (hphys : s'.phys = s.phys) (hmem : ∀ g, s.free g → s'.mem g = s.mem g)
    (h : newTables ok s is) : newTables ok s' is := by
  induction is generalizing s s' with
  | nil => trivial
  | cons i is ih =>
    obtain ⟨hok, hacc, hrest⟩ := h
    have haddr : s'.allocAddr = s.allocAddr := by rw [PageState.allocAddr, PageState.allocAddr, hphys]
    obtain ⟨g, hg, hgaddr, -, -⟩ := alloc_spec hok
    refine ⟨by rw [haddr]; exact hok, ?_, ?_⟩
    · rw [haddr, hgaddr, frameOf_frameAddr, hmem g hg]
      rwa [hgaddr, frameOf_frameAddr] at hacc
    · apply ih _ _ hrest
      · rw [PageState.alloc, PageState.alloc, hphys]
      · exact fun u hu => hmem u (alloc_free hok hu)

/-- Closing the window does not change what the walk meets. -/
theorem mountMeets_closed {ok : Page → List (BitVec 9) → Prop} {s : PageState} (h : PageTree s)
    {P is : List (BitVec 9)} {f : Frame} (hlen : P.length + is.length = 4)
    (hf : s.walk s.root P = some f) : mountMeets ok s.closed f is ↔ mountMeets ok s f is := by
  induction is generalizing P f with
  | nil => exact Iff.rfl
  | cons i is ih =>
    cases is with
    | nil => exact Iff.rfl
    | cons j is =>
      simp only [List.length_cons] at hlen
      have hmem := closed_mem_other (i := i) (Or.inl (h.upper_ne (p := P) (by omega) hf))
      have hfree : ∀ g, s.free g → s.closed.mem g = s.mem g :=
        fun g hg => setEntry_frame (h.free_ne hg)
      unfold mountMeets
      rw [hmem]
      by_cases h0 : s.mem f i = 0
      · rw [if_pos h0, if_pos h0]
        exact ⟨newTables_congr rfl fun g hg => (hfree g hg).symm, newTables_congr rfl hfree⟩
      · rw [if_neg h0, if_neg h0]
        refine and_congr_right fun hp => ih (P := P ++ [i]) (by simp; omega) ?_
        show follow _ _ _ _ = _
        rw [follow_concat]
        show (s.walk s.root P).bind _ = _
        rw [hf]
        exact Pte.next_eq_some.mpr ⟨hp, rfl⟩

theorem walk_concat (s : PageState) (r : Frame) (P : List (BitVec 9)) (i : BitVec 9) :
    s.walk r (P ++ [i]) = (s.walk r P).bind fun t => (s.mem t i).next := follow_concat r P i

/-- A table hung where the walk misses one: what the level leaves behind. -/
theorem linked_spec {s : PageState} (h : PageTree s) {P rest : List (BitVec 9)} {f : Frame}
    {i : BitVec 9} (ph : Pte) (hok : s.allocAddr ≠ 0) (hlen : P.length + rest.length = 3)
    (hP : P.length ≤ 2) (hf : s.walk s.root P = some f) (h0 : s.mem f i = 0)
    (hharm : harmless (s.mem (frameOf s.allocAddr)) rest) :
    Grown (P ++ i :: rest) s (s.linked f i ph) ∧
    (s.linked f i ph).walk s.root (P ++ [i]) = some (frameOf s.allocAddr) ∧
    (s.linked f i ph).phys = s.alloc.phys ∧
    ∀ g, s.free g → (s.linked f i ph).mem g = s.mem g := by
  have hnone : (s.mem f i).next = none := by rw [h0, Pte.next_zero]
  have hgrown := grown_link h hok ph hlen hP hf hnone hharm
  have hclosed := grown_closed hgrown.tree (P ++ i :: rest)
  have hhung : (s.alloc.put f i (s.newTable ph)).walk s.root (P ++ [i]) =
      some (frameOf s.allocAddr) :=
    (follow_setEntry_at (h.tree.onlyAt (by omega) hf) (by omega) hf).trans (newTable_next s ph)
  refine ⟨hgrown.trans hclosed, ?_, rfl, ?_⟩
  · exact (hgrown.tree.walk_closed (by simp; omega)).trans hhung
  · intro g hg
    have hgf : g ≠ f := fun hh => h.taken P f (by omega) hf (hh ▸ hg)
    exact (setEntry_frame (h.free_ne hg)).trans (setEntry_frame hgf)

theorem grown_refl {s : PageState} (h : PageTree s) (path : List (BitVec 9)) : Grown path s s where
  tree := h
  pml4 := rfl
  kernelPt := rfl
  off _ _ _ _ _ := rfl
  free _ hg := hg
  kept _ _ _ hf := hf
  tables _ _ _ hf := Or.inl hf
  frame _ _ _ := rfl

/-- A level above the last: the tree grows by its table where that is missing, and the walk
goes on from there. -/
theorem mountWalk_level {ok : Page → List (BitVec 9) → Prop}
    (hok : ∀ p is, ok p is → harmless p is) (ph : Pte) {is : List (BitVec 9)} {k i : BitVec 9}
    {s : PageState} {P : List (BitVec 9)} {table : BitVec 64} (h : PageTree s)
    (hlen : P.length + is.length = 2) (hf : s.walk s.root P = some (frameOf table))
    (hm : mountMeets ok s (frameOf table) (k :: is ++ [i])) :
    ∃ s' table', (mountWalk ph table (k :: is ++ [i])).run pageExec s =
        (mountWalk ph table' (is ++ [i])).run pageExec s' ∧
      Grown (P ++ k :: is ++ [i]) s s' ∧ s'.walk s.root (P ++ [k]) = some (frameOf table') ∧
      mountMeets ok s' (frameOf table') (is ++ [i]) ∧ ∀ g, s.free g → s'.mem g = s.mem g := by
  obtain ⟨j, r, hrest⟩ := List.exists_cons_of_ne_nil (List.concat_ne_nil i is)
  have hne : frameOf table ≠ s.kptFrame := h.upper_ne (p := P) (by omega) hf
  rw [List.cons_append, hrest] at hm
  unfold mountMeets at hm
  by_cases h0 : s.mem (frameOf table) k = 0
  · have hrun : (mountWalk ph table (k :: j :: r)).run pageExec s = _ :=
      run_mountWalk_new ph hne h0
    rw [← hrest, ← List.cons_append] at hrun
    rw [if_pos h0] at hm
    obtain ⟨halloc, hacc, hnew⟩ := hm
    have hharm : harmless (s.mem (frameOf s.allocAddr)) (is ++ [i]) := by
      rw [hrest]
      exact hok _ _ hacc
    obtain ⟨hgrown, hwalk, hphys, hmem⟩ := linked_spec h ph halloc (by simp; omega) (by omega)
      hf h0 hharm
    have hgrown' : Grown (P ++ k :: is ++ [i]) s (s.linked (frameOf table) k ph) := by
      rw [List.append_assoc, List.cons_append]
      exact hgrown
    have hframe : frameOf (s.newTable ph).base = frameOf s.allocAddr := by
      rw [frameOf_base]
      exact (Pte.next_eq_some.mp (newTable_next s ph)).2
    obtain ⟨g, hgfree, hgaddr, -, -⟩ := alloc_spec halloc
    -- the new table is empty on the way down, so what is missing below it is missing there too
    have hmeets : mountMeets ok (s.linked (frameOf table) k ph)
        (frameOf (s.newTable ph).base) (is ++ [i]) := by
      rw [hrest, hframe]
      cases r with
      | nil => trivial
      | cons j' r =>
        have hempty : (s.linked (frameOf table) k ph).mem (frameOf s.allocAddr) j = 0 := by
          rw [hgaddr, frameOf_frameAddr, hmem g hgfree]
          have hzero := (hok _ _ hacc).2 (by simp)
          rwa [hgaddr, frameOf_frameAddr] at hzero
        unfold mountMeets
        rw [if_pos hempty]
        exact newTables_congr hphys (fun u hu => hmem u (alloc_free halloc hu)) hnew
    exact ⟨_, _, hrun, hgrown', hwalk.trans (congrArg some hframe.symm), hmeets, hmem⟩
  · have hrun : (mountWalk ph table (k :: j :: r)).run pageExec s = _ :=
      run_mountWalk_cons ph hne h0
    rw [← hrest, ← List.cons_append] at hrun
    rw [if_neg h0] at hm
    obtain ⟨hpresent, hm⟩ := hm
    have hwalk : s.closed.walk s.root (P ++ [k]) =
        some (frameOf (s.mem (frameOf table) k).base) := by
      rw [h.walk_closed (by simp; omega), walk_concat, hf, frameOf_base]
      exact Pte.next_eq_some.mpr ⟨hpresent, rfl⟩
    have hmeets : mountMeets ok s.closed (frameOf (s.mem (frameOf table) k).base) (is ++ [i]) := by
      rw [hrest]
      refine (mountMeets_closed h (P := P ++ [k]) ?_ ((h.walk_closed (by simp; omega)).symm.trans
        hwalk)).mpr (by rw [frameOf_base]; exact hm)
      rw [← hrest]
      simp
      omega
    exact ⟨_, _, hrun, grown_closed h _, hwalk, hmeets,
      fun g hg => setEntry_frame (h.free_ne hg)⟩

/-- The walk grows the tree by the tables it misses and ends with its entry written. The
frames that are still free then have not been written. -/
theorem mountWalk_spec {ok : Page → List (BitVec 9) → Prop}
    (hok : ∀ p is, ok p is → harmless p is) (ph : Pte) {is : List (BitVec 9)} {i : BitVec 9}
    {s : PageState} {P : List (BitVec 9)} {table : BitVec 64} (h : PageTree s)
    (hlen : P.length + is.length = 3) (hf : s.walk s.root P = some (frameOf table))
    (hm : mountMeets ok s (frameOf table) (is ++ [i])) :
    ∃ s₁ t, Grown (P ++ is ++ [i]) s s₁ ∧ s₁.walk s.root (P ++ is) = some t ∧
      (mountWalk ph table (is ++ [i])).run pageExec s = ((), (s₁.put t i ph).closed) ∧
      ∀ g, s₁.free g → s₁.mem g = s.mem g := by
  induction is generalizing s P table with
  | nil =>
    refine ⟨s, frameOf table, grown_refl h _, by rw [List.append_nil]; exact hf, ?_,
      fun _ _ => rfl⟩
    exact run_mountLast table i ph s
  | cons k is ih =>
    simp only [List.length_cons] at hlen
    obtain ⟨s', table', hrun, hgrown, hwalk, hmeets, hmem⟩ :=
      mountWalk_level hok ph h (P := P) (by omega) hf hm
    rw [← hgrown.root] at hwalk
    obtain ⟨s₁, t, hgrown₁, hwalk₁, hrun₁, hmem₁⟩ := ih (P := P ++ [k]) hgrown.tree
      (by simp; omega) hwalk hmeets
    have hpath : P ++ [k] ++ is ++ [i] = P ++ k :: is ++ [i] := by simp
    rw [hpath] at hgrown₁
    rw [List.append_assoc, List.singleton_append, hgrown.root] at hwalk₁
    refine ⟨s₁, t, hgrown.trans hgrown₁, hwalk₁, hrun.trans hrun₁, fun g hg => ?_⟩
    rw [hmem₁ g hg, hmem g (hgrown.free g (hgrown₁.free g hg))]

/-- An entry written in a table of the lowest level. -/
theorem grown_put {s : PageState} (h : PageTree s) {P : List (BitVec 9)} {t : Frame}
    (hP : P.length = 3) (ht : s.walk s.root P = some t) (i : BitVec 9) (e : Pte) :
    Grown (P ++ [i]) s (s.put t i e) := by
  have honly := h.tree.onlyAt (by omega) ht
  have hwalk : ∀ q, q.length ≤ 3 → (s.put t i e).walk s.root q = s.walk s.root q := by
    intro q hq
    apply follow_setEntry_off honly (by omega)
    intro hpre
    have hlen := hpre.length_le
    simp only [List.length_append, List.length_singleton] at hlen
    omega
  refine ⟨⟨?_, ?_, ?_⟩, rfl, rfl, ?_, fun _ hg => hg, ?_, ?_, ?_⟩
  · intro p q f hp hq hpf hqf
    exact h.tree p q f hp hq ((hwalk p hp).symm.trans hpf) ((hwalk q hq).symm.trans hqf)
  · intro p f hp hf
    exact h.taken p f hp ((hwalk p hp).symm.trans hf)
  · exact (hwalk _ (by decide)).trans h.kernel
  · intro q j hq hpath _
    apply lookup_setEntry_off honly (by omega)
    intro hpre
    refine hpath (hpre.eq_of_length_le ?_).symm
    simp only [List.length_append, List.length_singleton]
    omega
  · intro q f hq hf
    exact (hwalk q hq).trans hf
  · intro q f hq hf
    exact Or.inl ((hwalk q hq).symm.trans hf)
  · intro f _ hout
    exact setEntry_frame fun hh => hout P (by omega) (by rw [ht, hh])

/-- The three indices above the last of a path. -/
def tablePath (v : BitVec 64) : List (BitVec 9) :=
  [linearIndex 3 v, linearIndex 2 v, linearIndex 1 v]

theorem pagePath_eq (v : BitVec 64) : pagePath v = tablePath v ++ [linearIndex 0 v] := rfl

/-- What `mount_page_do` does where `mountMeets` holds. -/
theorem mountPageDo_spec {ok : Page → List (BitVec 9) → Prop}
    (hok : ∀ p is, ok p is → harmless p is) {s : PageState} (h : PageTree s) (v : BitVec 64)
    (ph : Pte) (hm : mountMeets ok s s.root (pagePath v)) :
    Grown (pagePath v) s ((mountPageDo v ph).run pageExec s).2 ∧
    ((mountPageDo v ph).run pageExec s).2.slot = 0 ∧
    (pagePath v ≠ windowPath →
      ∃ t, ((mountPageDo v ph).run pageExec s).2.walk s.root (tablePath v) = some t ∧
        ((mountPageDo v ph).run pageExec s).2.mem t (linearIndex 0 v) = ph) := by
  have hspec : mountMeets ok s (frameOf s.pml4) (tablePath v ++ [linearIndex 0 v]) → _ :=
    mountWalk_spec hok ph h (P := []) rfl rfl
  obtain ⟨s₁, t, hgrown, hwalk, hrun, -⟩ := hspec hm
  have hrun' : (mountPageDo v ph).run pageExec s = ((), (s₁.put t (linearIndex 0 v) ph).closed) :=
    hrun
  rw [hrun']
  rw [List.nil_append] at hgrown hwalk
  have hwalk₁ : s₁.walk s₁.root (tablePath v) = some t := by rw [hgrown.root]; exact hwalk
  have hput := grown_put hgrown.tree rfl hwalk₁ (linearIndex 0 v) ph
  have hclosed := grown_closed hput.tree (pagePath v)
  refine ⟨hgrown.trans (hput.trans hclosed), setEntry_same _ _ _ _, ?_⟩
  intro hwin
  have hkept := (hput.trans hclosed).kept (tablePath v) t (by decide : 3 ≤ 3) hwalk₁
  rw [hgrown.root] at hkept
  refine ⟨t, hkept, ?_⟩
  refine (closed_mem_other ?_).trans (setEntry_same _ _ _ _)
  by_contra hcon
  rw [not_or, not_not, not_not] at hcon
  have hpath := hput.tree.kernel_onlyAt (tablePath v) (by decide : 3 ≤ 3)
    (hput.kept (tablePath v) t (by decide : 3 ≤ 3) hwalk₁ |>.trans (congrArg some hcon.1))
  exact hwin (by rw [pagePath_eq, hpath, hcon.2]; rfl)

/-- No frame that stays free is written by it. -/
theorem mountPageDo_free {ok : Page → List (BitVec 9) → Prop}
    (hok : ∀ p is, ok p is → harmless p is) {s : PageState} (h : PageTree s) (v : BitVec 64)
    (ph : Pte) (hm : mountMeets ok s s.root (pagePath v)) {g : Frame}
    (hg : ((mountPageDo v ph).run pageExec s).2.free g) :
    ((mountPageDo v ph).run pageExec s).2.mem g = s.mem g := by
  have hspec : mountMeets ok s (frameOf s.pml4) (tablePath v ++ [linearIndex 0 v]) → _ :=
    mountWalk_spec hok ph h (P := []) rfl rfl
  obtain ⟨s₁, t, hgrown, hwalk, hrun, hmem⟩ := hspec hm
  have hrun' : (mountPageDo v ph).run pageExec s = ((), (s₁.put t (linearIndex 0 v) ph).closed) :=
    hrun
  rw [hrun'] at hg ⊢
  rw [List.nil_append, ← hgrown.root] at hwalk
  have hgt : g ≠ t := fun hh => hgrown.tree.taken (tablePath v) t (by simp [tablePath]) hwalk (hh ▸ hg)
  exact (setEntry_frame (hgrown.tree.free_ne hg)).trans ((setEntry_frame hgt).trans (hmem g hg))

/-- The recovery from a heap fault: a frame is taken and mounted. -/
theorem run_pageFault {kernelHeap addr reg1 : BitVec 64}
    (h : kernelHeap ≤ addr ∧ reg1.getLsbD 0 = false ∧ reg1.getLsbD 2 = false) (s : PageState) :
    ((pageFault kernelHeap addr reg1).run pageExec s).2 =
      ((mountPage s.allocAddr (addr &&& 0xFFFFFFFFFFFFF000#64)).run pageExec s.alloc).2 := by
  rw [pageFault, if_pos h]
  show ((mountPage _ _ >>= fun _ => pure true).run pageExec s.alloc).2 = _
  rw [Prog.run_bind]
  rfl

end OS64.Mm
