import OS64.Lib.Pieces
import OS64.Mm.PageCopy
import OS64.Mm.PageMount

/-!
# `copy_pages` as a copy of the address space

What `copy_page` does to tables, read as what it does to pages. `copy_pages` asks
of the tree under `CR3` what `CopyTree` says: its tables are taken, and `kernel_pt` is
in its place and in no other. That every other table has one entry that leads to it is
not used: a table reached twice is copied twice.

Of the number of a frame the lower 28 bits are read. A table whose frame has zeros there
passes for an empty entry and is not copied, but shared, with all that hangs from it; of
one behind the first 2^28 frames another frame is copied in its place. `ForkMeets` says
when neither matters.
-/

namespace OS64.Mm

open OS64.Lib

/-! ## Address spaces that can be copied -/

/-- The tables under `r` are taken, and `kernel_pt` is in its place among them. -/
structure CopyTree (s : PageState) (r : Frame) : Prop where
  only : OnlyAt Pte.next s.mem r 3 s.kptFrame kernelPath
  kernel : s.walk r kernelPath = some s.kptFrame
  aligned : s.kernelPt &&& 0xFFF#64 = 0
  taken : ∀ p f, p.length ≤ 3 → s.walk r p = some f → ¬ s.free f

/-- No table but the root lies in frame 0. -/
def TablesNonzero (s : PageState) (r : Frame) : Prop :=
  ∀ p f, p ≠ [] → p.length ≤ 3 → s.walk r p = some f → f ≠ 0

/-- No lowest table but `kernel_pt` is taken for it. -/
def FirstEntries (s : PageState) (r : Frame) : Prop :=
  ∀ p f, p.length = 3 → p ≠ kernelPath → s.walk r p = some f → (s.mem f 0).addr ≠ 0 →
    cutFrame (s.mem f 0).address ≠ s.kptFrame

/-- The tables are read where they lie, or pass for empty entries. -/
structure TablesRead (s : PageState) (r : Frame) : Prop where
  plain : ∀ p f, p ≠ [] → p.length ≤ 3 → s.walk r p = some f → cutFrame f = f ∨ cutFrame f = 0
  first : FirstEntries s r

/-- The tables but the root lie in the first `2 ^ 28` frames. -/
def TablesLow (s : PageState) (r : Frame) : Prop :=
  ∀ p f, p ≠ [] → p.length ≤ 3 → s.walk r p = some f → f.toNat < 2 ^ 28

/-- The flag bits on the way to the page of `v` are kept on every level. -/
def FlagsKept (s s' : PageState) (r r' : Frame) (v : BitVec 64) : Prop :=
  ∀ p i t t', p ++ [i] <+: pagePath v → s.walk r p = some t → s'.walk r' p = some t' →
    s'.mem t' i &&& 0x1F#64 = s.mem t i &&& 0x1F#64

/-- In `s'` the tree under `r'` is a copy of what the tree under `r` was in `s`: it shares
the pages of `kernel_pt` and has the others in new frames. -/
structure SpaceCopied (s s' : PageState) (r r' : Frame) : Prop where
  shared : ∀ v, tablePath v = kernelPath → pagePath v ≠ windowPath →
    s'.translate r' v = s.translate r v
  copied : ∀ v e, tablePath v ≠ kernelPath → s.translate r v = some e → e.address ≠ 0 →
    ∃ e', s'.translate r' v = some e' ∧ s.newFrame s' e'.address ∧
      s'.mem e'.address = s.mem e.address ∧ FlagsKept s s' r r' v
  unmapped : ∀ v, pagePath v ≠ windowPath → s.translate r v = none → s'.translate r' v = none
  kept : ∀ f i, ¬ s.free f → f ≠ s.kptFrame ∨ i ≠ 0 → s'.mem f i = s.mem f i

section

variable {s : PageState} {r : Frame}

/-- `kernel_pt & 0x0FFFFFFF`, a multiple of the page size, is the address of its frame. -/
theorem kernelPt_mask (h : s.kernelPt &&& 0xFFF#64 = 0) :
    s.kernelPt &&& 0x0FFFFFFF#64 = frameAddr s.kptFrame := by
  apply BitVec.eq_of_getLsbD_eq
  intro i hi
  rw [frameAddr_getLsbD _ hi]
  by_cases h12 : i < 12
  · have hbit : (s.kernelPt &&& 0xFFF#64).getLsbD i = false := by rw [h]; exact BitVec.getLsbD_zero
    have hlow : (0xFFF#64).getLsbD i = true ∧ (0x0FFFFFFF#64).getLsbD i = true := by
      clear hi hbit h
      revert i
      decide +kernel
    rw [BitVec.getLsbD_and, hlow.1, Bool.and_true] at hbit
    rw [BitVec.getLsbD_and, hbit]
    simp [show ¬ 12 ≤ i by omega]
  · by_cases h52 : i - 12 < 40
    · rw [PageState.kptFrame, frameOf, BitVec.getLsbD_extractLsb', show 12 + (i - 12) = i by omega]
      simp [h52, show 12 ≤ i by omega]
    · have hhigh : (0x0FFFFFFF#64).getLsbD i = false := by
        have h52' : 52 ≤ i := by omega
        clear h12 h52 h
        revert i
        decide +kernel
      rw [BitVec.getLsbD_and, hhigh, BitVec.getLsbD_of_ge _ (i - 12) (by omega)]
      simp

theorem CopyTree.kernelPt (h : CopyTree s r) : KernelPt s where
  taken := h.taken kernelPath _ (by decide) h.kernel
  aligned := kernelPt_mask h.aligned

/-- Every table of the tree that passes for no empty entry can be copied. -/
theorem CopyTree.good (h : CopyTree s r) (hread : TablesRead s r) (k : Nat) {p : List (BitVec 9)}
    {f : Frame} (hp : p.length + k = 4) (hf : s.walk r p = some f) (hne : p ≠ [] → f ≠ 0) :
    CopyGood s k f := by
  induction k generalizing p f with
  | zero => trivial
  | succ k ih =>
    by_cases hkpt : f = s.kptFrame
    · have hpath := h.only p (by omega) (hf.trans (congrArg some hkpt))
      have hlen : p.length = 3 := by rw [hpath]; rfl
      exact Or.inl ⟨by omega, hkpt, hne (by rw [hpath]; decide)⟩
    · refine Or.inr ⟨h.taken p f (by omega) hf, hkpt, ?_, ?_⟩
      · intro hk
        apply hread.first p f (by omega) _ hf
        rintro rfl
        exact hkpt (Option.some.inj (hf.symm.trans h.kernel))
      · intro i hpresent haddr
        cases k with
        | zero => trivial
        | succ k =>
          have hsub : s.walk r (p ++ [i]) = some (s.mem f i).address := by
            rw [walk_concat, hf]
            exact Pte.next_eq_some.mpr ⟨hpresent, rfl⟩
          have hcut0 : cutFrame (s.mem f i).address ≠ 0 := fun hh => haddr (Pte.addr_eq_zero.mpr hh)
          have hcut := (hread.plain (p ++ [i]) _ (by simp) (by simp; omega) hsub).resolve_right hcut0
          rw [hcut] at hcut0 ⊢
          exact ih (by simp; omega) hsub fun _ => hcut0

/-- Tables in low frames are read where they lie. -/
theorem TablesLow.read (h : TablesLow s r) (hfirst : FirstEntries s r) : TablesRead s r :=
  ⟨fun p f hne hp hf => Or.inl (cutFrame_eq (h p f hne hp hf)), hfirst⟩

/-- What `copy_pages` leaves behind: the copy of the root, and nothing else changed. -/
theorem copyPages_copied (h : CopyTree s (frameOf s.cr3)) (hread : TablesRead s (frameOf s.cr3))
    (hok : AllocsOk copyPages s) :
    CopyKeeps s (copyPages.run pageExec s).2 ∧
    Copied s (copyPages.run pageExec s).2 4 (frameOf s.cr3) (frameOf (copyPages.run pageExec s).1) := by
  have hrun : copyPages.run pageExec s = (copyPage 4 s.cr3).run pageExec s := rfl
  have hallocs : AllocsOk (copyPage 4 s.cr3) s := hok.2
  obtain ⟨hkeeps, -, hdone⟩ :=
    copyPage_spec h.kernelPt 4 s.cr3 s (CopyKeeps.refl s) hallocs
  rw [hrun]
  exact ⟨hkeeps, hdone (h.good hread 4 (p := []) rfl rfl fun hh => absurd rfl hh)⟩

/-! ## The pages of the copy -/

theorem look_of_walk {q : List (BitVec 9)} {t : Frame} (h : s.walk r q = some t) (j : BitVec 9) :
    s.look r q j = if (s.mem t j).present then some (s.mem t j) else none := by
  have hwalk : follow Pte.next s.mem r q = some t := h
  rw [PageState.look, lookup, hwalk, Option.bind_some, Pte.next]
  split <;> rfl

theorem look_eq_some {q : List (BitVec 9)} {j : BitVec 9} {e : Pte} :
    s.look r q j = some e ↔ ∃ t, s.walk r q = some t ∧ s.mem t j = e ∧ e.present = true := by
  have hsome : (Pte.next e).isSome = true ↔ e.present = true := by
    unfold Pte.next
    cases e.present <;> simp
  rw [PageState.look, lookup_eq_some, hsome]
  rfl

theorem look_none {q : List (BitVec 9)} (h : s.walk r q = none) (j : BitVec 9) :
    s.look r q j = none := by
  have hwalk : follow Pte.next s.mem r q = none := h
  rw [PageState.look, lookup, hwalk]
  rfl

end

variable {s s' : PageState} {r r' : Frame}

/-- A table on the way passes for an empty entry. -/
def PassesOver (s : PageState) (r : Frame) (p : List (BitVec 9)) : Prop :=
  ∃ q f, q ≠ [] ∧ q <+: p ∧ s.walk r q = some f ∧ cutFrame f = 0

/-- A table of the tree, down to the lowest, and its copy, or both are one. -/
theorem copied_table (htree : CopyTree s r) (hread : TablesRead s r) (hkeeps : CopyKeeps s s')
    (h : Copied s s' 4 r r') {p : List (BitVec 9)} (hp : p.length ≤ 3) :
    (s.walk r p = none ∧ s'.walk r' p = none) ∨
      (∃ t t', s.walk r p = some t ∧ s'.walk r' p = some t' ∧ Copied s s' (4 - p.length) t t' ∧
        ¬ PassesOver s r p) ∨
      (s'.walk r' p = s.walk r p ∧ PassesOver s r p) := by
  have hlen : p.length + (4 - p.length) = 4 := by omega
  rw [← hlen] at h
  have hkept : ∀ q u i, q.length < p.length → s.walk r q = some u → s'.mem u i = s.mem u i := by
    intro q u i hq hu
    refine hkeeps.mem u i (htree.taken q u (by omega) hu) (Or.inl ?_)
    rintro rfl
    have hpath := htree.only q (by omega) hu
    rw [hpath, show kernelPath.length = 3 from rfl] at hq
    omega
  rcases copied_walk (by omega) h
    (fun q u hne hq hu => hread.plain q u hne (Nat.le_trans hq.length_le hp) hu) hkept with
    hnone | ⟨t, t', ht, ht', hc, hnonzero⟩ | hshared
  · exact Or.inl hnone
  · refine Or.inr (Or.inl ⟨t, t', ht, ht', hc, ?_⟩)
    rintro ⟨q, f, hne, hq, hf, hzero⟩
    exact hnonzero q f hne hq hf hzero
  · exact Or.inr (Or.inr hshared)

/-- In low frames no table passes for an empty entry. -/
theorem TablesLow.not_passes (hlow : TablesLow s r) (hzero : TablesNonzero s r) {p : List (BitVec 9)}
    (hp : p.length ≤ 3) : ¬ PassesOver s r p := by
  rintro ⟨q, f, hne, hq, hf, h0⟩
  have hlen := Nat.le_trans hq.length_le hp
  rw [cutFrame_eq (hlow q f hne hlen hf)] at h0
  exact hzero q f hne hlen hf h0

/-- A table on the way to a page is on the way to what is on it. -/
theorem PassesOver.of_prefix {p q : List (BitVec 9)} (h : PassesOver s r p) (hp : p <+: q) :
    PassesOver s r q := by
  obtain ⟨w, f, hne, hw, hf, h0⟩ := h
  exact ⟨w, f, hne, hw.trans hp, hf, h0⟩

/-- A table other than `kernel_pt` has its copy in a new frame, entry by entry. -/
theorem Copied.entries {k : Nat} {t t' : Frame} (h : Copied s s' (k + 1) t t') (hk : t ≠ s.kptFrame) :
    s.newFrame s' t' ∧ ∀ i, EntryCopied (Copied s s' k) (s.mem t i) (s'.mem t' i) := by
  rcases h with ⟨-, hkpt, -⟩ | ⟨-, hcopy⟩
  · exact absurd hkpt hk
  · exact hcopy

/-- `kernel_pt` is its own copy. -/
theorem Copied.shared {k : Nat} {t' : Frame} (h : Copied s s' (k + 1) s.kptFrame t') :
    t' = s.kptFrame := by
  rcases h with ⟨-, -, hsame⟩ | ⟨hne, -⟩
  · exact hsame
  · exact absurd rfl hne

theorem EntryCopied.flags {C : Frame → Frame → Prop} {e e' : Pte} (h : EntryCopied C e e') :
    e' &&& 0x1F#64 = e &&& 0x1F#64 := by
  by_cases h0 : e.addr = 0
  · rw [h.1 h0]
  · exact (h.2 h0).1

/-- The tables on the way to a page that is not of `kernel_pt` keep their flags. -/
theorem flagsKept_copied (htree : CopyTree s r) (hread : TablesRead s r) (hkeeps : CopyKeeps s s')
    (h : Copied s s' 4 r r') {v : BitVec 64} (hv : tablePath v ≠ kernelPath)
    (hpass : ¬ PassesOver s r (tablePath v)) : FlagsKept s s' r r' v := by
  intro p i t t' hp ht ht'
  have hlen : p.length ≤ 3 := by
    have hle := hp.length_le
    rw [List.length_append, List.length_singleton, show (pagePath v).length = 4 from rfl] at hle
    omega
  have hbegin : p <+: tablePath v := by
    rw [pagePath_eq] at hp
    have hpath : p <+: tablePath v ++ [linearIndex 0 v] := (List.prefix_append p [i]).trans hp
    rcases List.prefix_concat_iff.mp hpath with heq | hp'
    · rw [heq, List.length_append] at hlen
      simp [tablePath] at hlen
    · exact hp'
  rcases copied_table htree hread hkeeps h hlen with ⟨hnone, -⟩ | ⟨u, u', hu, hu', hcopy, -⟩ |
    ⟨-, hover⟩
  · rw [ht] at hnone
    cases hnone
  · rw [ht] at hu
    rw [ht'] at hu'
    cases hu
    cases hu'
    have hne : t ≠ s.kptFrame := by
      rintro rfl
      have hpath := htree.only _ hlen ht
      refine hv ?_
      rw [hpath] at hbegin
      exact (hbegin.eq_of_length rfl).symm
    rw [show 4 - p.length = (3 - p.length) + 1 by omega] at hcopy
    exact ((hcopy.entries hne).2 i).flags
  · exact absurd (hover.of_prefix hbegin) hpass

/-- `kernel_pt` is in its place in the copy. -/
theorem copied_kernel (htree : CopyTree s r) (hread : TablesRead s r) (hkeeps : CopyKeeps s s')
    (h : Copied s s' 4 r r') : s'.walk r' kernelPath = some s.kptFrame := by
  rcases copied_table htree hread hkeeps h (p := kernelPath) (by decide) with
    ⟨hnone, -⟩ | ⟨t, t', ht, ht', hc, -⟩ | ⟨hsame, -⟩
  · rw [htree.kernel] at hnone
    cases hnone
  · rw [htree.kernel] at ht
    cases ht
    rw [hc.shared] at ht'
    exact ht'
  · exact hsame.trans htree.kernel

/-- An entry of the tree but the slot is as it was. -/
theorem copied_entry (htree : CopyTree s r) (hkeeps : CopyKeeps s s') {v : BitVec 64} {t : Frame}
    (hwin : pagePath v ≠ windowPath) (ht : s.walk r (tablePath v) = some t) :
    s'.mem t (linearIndex 0 v) = s.mem t (linearIndex 0 v) := by
  have hlen : (tablePath v).length ≤ 3 := by simp [tablePath]
  refine hkeeps.mem t _ (htree.taken _ t hlen ht) ?_
  by_contra hcon
  rw [not_or, not_not, not_not] at hcon
  have hpath := htree.only _ hlen (ht.trans (congrArg some hcon.1))
  exact hwin (by rw [pagePath_eq, hpath, hcon.2]; rfl)

/-- A page whose table is one with that of the copy is mapped as it was. -/
theorem copied_same (htree : CopyTree s r) (hkeeps : CopyKeeps s s') {v : BitVec 64}
    (hwin : pagePath v ≠ windowPath) (hsame : s'.walk r' (tablePath v) = s.walk r (tablePath v)) :
    s'.translate r' v = s.translate r v := by
  rw [PageState.translate, PageState.translate]
  cases ht : s.walk r (tablePath v) with
  | none => rw [look_none ht, look_none (hsame.trans ht)]
  | some t => rw [look_of_walk ht, look_of_walk (hsame.trans ht), copied_entry htree hkeeps hwin ht]

/-- A page that was not mapped is not mapped in the copy. -/
theorem copied_unmapped (htree : CopyTree s r) (hread : TablesRead s r) (hkeeps : CopyKeeps s s')
    (h : Copied s s' 4 r r') {v : BitVec 64} (hwin : pagePath v ≠ windowPath)
    (hnone : s.translate r v = none) : s'.translate r' v = none := by
  have hlen : (tablePath v).length ≤ 3 := by simp [tablePath]
  rcases copied_table htree hread hkeeps h hlen with
    ⟨-, hnone'⟩ | ⟨t, t', ht, ht', hc, -⟩ | ⟨hsame, -⟩
  · exact look_none hnone' _
  · by_cases hk : t = s.kptFrame
    · rw [hk] at hc ht
      rw [hc.shared] at ht'
      rw [copied_same htree hkeeps hwin (ht'.trans ht.symm), hnone]
    · rw [PageState.translate, look_of_walk ht] at hnone
      rw [PageState.translate, look_of_walk ht']
      have habsent : (s.mem t (linearIndex 0 v)).present = false := by
        by_contra hp
        rw [if_pos (by simpa using hp)] at hnone
        cases hnone
      rw [present_of_low5 ((Copied.entries (k := 0) hc hk).2 (linearIndex 0 v)).flags, habsent]
      rfl
  · rw [copied_same htree hkeeps hwin hsame, hnone]

/-- No page outside `kernel_pt` is the window. -/
theorem window_kernel {v : BitVec 64} (hv : tablePath v ≠ kernelPath) : pagePath v ≠ windowPath := by
  intro hwin
  rw [pagePath_eq] at hwin
  exact hv (List.append_inj hwin rfl).1

/-! ## What the copy shows -/

/-- No table is read in another's place, and the frames that are read for pages are taken. -/
structure ForkPlain (s : PageState) (r : Frame) : Prop where
  tables : TablesRead s r
  pages : ∀ v e, tablePath v ≠ kernelPath → s.translate r v = some e →
    ¬ s.free (cutFrame e.address)

/-- Neither a page outside `kernel_pt` nor a table on the way to it passes for an empty entry, and
the frame that is read for the page shows its bytes. -/
def ForkMeets (s : PageState) (r : Frame) : Prop :=
  ∀ v e, tablePath v ≠ kernelPath → s.translate r v = some e → e.address ≠ 0 →
    ¬ PassesOver s r (tablePath v) ∧ cutFrame e.address ≠ 0 ∧
      s.shown (cutFrame e.address) = s.mem e.address

/-- A page outside `kernel_pt` in the copy: it has the entry it had, or a new frame for the one
that is read. -/
theorem copied_page (htree : CopyTree s r) (hread : TablesRead s r) (hkeeps : CopyKeeps s s')
    (h : Copied s s' 4 r r') {v : BitVec 64} {e : Pte} (hv : tablePath v ≠ kernelPath)
    (he : s.translate r v = some e) :
    ((PassesOver s r (tablePath v) ∨ cutFrame e.address = 0) ∧ s'.translate r' v = some e) ∨
      (¬ PassesOver s r (tablePath v) ∧ cutFrame e.address ≠ 0 ∧ ∃ e', s'.translate r' v = some e' ∧
        Copied s s' 0 (cutFrame e.address) e'.address) := by
  obtain ⟨t, ht, hmem, hpresent⟩ := look_eq_some.mp he
  rcases copied_table htree hread hkeeps h (p := tablePath v) (by simp [tablePath]) with
    ⟨hnone, -⟩ | ⟨u, u', hu, hu', hc, hpass⟩ | ⟨hsame, hover⟩
  · rw [ht] at hnone
    cases hnone
  · rw [ht] at hu
    cases hu
    have hk : t ≠ s.kptFrame := by
      rintro rfl
      exact hv (htree.only _ (by simp [tablePath]) ht)
    obtain ⟨-, hentries⟩ := Copied.entries (k := 0) hc hk
    have hentry := hentries (linearIndex 0 v)
    rw [hmem] at hentry
    by_cases h0 : cutFrame e.address = 0
    · have hsame := hentry.1 (Pte.addr_eq_zero.mpr h0)
      exact Or.inl ⟨Or.inr h0, look_eq_some.mpr ⟨u', hu', hsame, hpresent⟩⟩
    · obtain ⟨hlow, hcopy⟩ := hentry.2 fun hh => h0 (Pte.addr_eq_zero.mp hh)
      refine Or.inr ⟨hpass, h0, s'.mem u' (linearIndex 0 v), ?_, hcopy hpresent⟩
      exact look_eq_some.mpr ⟨u', hu', rfl, (present_of_low5 hlow).trans hpresent⟩
  · refine Or.inl ⟨Or.inl hover, ?_⟩
    rw [copied_same htree hkeeps (window_kernel hv) hsame]
    exact he

/-- What is copied table by table is copied page by page just where the condition holds. -/
theorem spaceCopied_iff (htree : CopyTree s r) (hplain : ForkPlain s r)
    (hdata : ∀ v e, tablePath v ≠ kernelPath → s.translate r v = some e → ¬ s.free e.address)
    (hkeeps : CopyKeeps s s') (h : Copied s s' 4 r r') :
    SpaceCopied s s' r r' ↔ ForkMeets s r := by
  have hread := hplain.tables
  constructor
  · intro hcopied v e hv he hne
    obtain ⟨e', he', hnew, hbytes, -⟩ := hcopied.copied v e hv he hne
    rcases copied_page htree hread hkeeps h hv he with ⟨-, hsame⟩ | ⟨hpass, h0, e₁, he₁, -, hshown⟩
    · -- the page is the parent's own, in a frame that was taken
      rw [hsame] at he'
      cases he'
      exact absurd hnew.1 (hdata v e hv he)
    · rw [he₁] at he'
      cases he'
      exact ⟨hpass, h0, (hshown (hplain.pages v e hv he)).symm.trans hbytes⟩
  · intro hmeets
    refine ⟨fun v hv hwin => copied_same htree hkeeps hwin ?_, fun v e hv he hne => ?_, fun v hwin hnone =>
      copied_unmapped htree hread hkeeps h hwin hnone, hkeeps.mem⟩
    · rw [hv, copied_kernel htree hread hkeeps h, htree.kernel]
    · obtain ⟨hpass, h0, hbytes⟩ := hmeets v e hv he hne
      rcases copied_page htree hread hkeeps h hv he with ⟨hover, -⟩ | ⟨-, -, e', he', hnew, hshown⟩
      · exact absurd hover (not_or.mpr ⟨hpass, h0⟩)
      · exact ⟨e', he', hnew, (hshown (hplain.pages v e hv he)).trans hbytes,
          flagsKept_copied htree hread hkeeps h hv hpass⟩

/-! ## `copy_pages` -/

/-- What is asked of the machine before `copy_pages`: a tree under `CR3` with `kernel_pt` in its
place, its pages taken too, and frames for the copy. -/
structure Forkable (s : PageState) : Prop where
  tree : CopyTree s (frameOf s.cr3)
  data : ∀ v e, tablePath v ≠ kernelPath → s.translate (frameOf s.cr3) v = some e →
    ¬ s.free e.address
  allocs : AllocsOk copyPages s

/-- `copy_pages` returns the root of a copy. -/
def ForkCopies (s : PageState) : Prop :=
  SpaceCopied s (copyPages.run pageExec s).2 (frameOf s.cr3) (frameOf (copyPages.run pageExec s).1)

/-- `copy_pages` copies the address space where every table is read where it lies and the
condition holds. Where no table is read in another's place the condition is exact. -/
theorem copyPages_forks_iff {s : PageState} (h : Forkable s) :
    (ForkPlain s (frameOf s.cr3) ∧ ForkMeets s (frameOf s.cr3) → ForkCopies s) ∧
    (ForkPlain s (frameOf s.cr3) → ForkCopies s → ForkMeets s (frameOf s.cr3)) := by
  have hiff (hplain : ForkPlain s (frameOf s.cr3)) : ForkCopies s ↔ ForkMeets s (frameOf s.cr3) := by
    obtain ⟨hkeeps, hcopied⟩ := copyPages_copied h.tree hplain.tables h.allocs
    exact spaceCopied_iff h.tree hplain h.data hkeeps hcopied
  exact ⟨fun hmeets => (hiff hmeets.1).mpr hmeets.2, fun hplain => (hiff hplain).mp⟩

/-! ## Small trees -/

/-- Memory that holds the given entries: table, index, and the frame led to. -/
def linkMem (links : List (Frame × BitVec 9 × Frame)) : Frame → Page := fun f i =>
  match links.find? fun l => decide (l.1 = f ∧ l.2.1 = i) with
  | some l => calcPage (frameAddr l.2.2)
  | none => 0

theorem linkMem_next {links : List (Frame × BitVec 9 × Frame)} {f g : Frame} {i : BitVec 9}
    (h : (linkMem links f i).address = g) (hne : linkMem links f i ≠ 0) : (f, i, g) ∈ links := by
  unfold linkMem at h hne
  split at hne
  next l hl =>
    rw [hl] at h
    have hmem := List.mem_of_find?_eq_some hl
    have hfound := List.find?_some hl
    have hkey := of_decide_eq_true hfound
    have hg : l.2.2 = g := by
      rw [← h]
      exact ((calcPage_spec _).1.trans (frameOf_frameAddr _)).symm
    rwa [← hkey.1, ← hkey.2, ← hg]
  next => exact absurd rfl hne

/-- The kernel's three tables and `kernel_pt`, and beside that the table `pt`, whose second
page is mapped to `data`, with one word there that is not 0. -/
def treeLinks (pt data : Frame) : List (Frame × BitVec 9 × Frame) :=
  [(0x150, 511, 0x151), (0x151, 511, 0x152), (0x152, 0, 0x153), (0x152, 1, pt), (pt, 1, data),
    (data, 5, 0x1234)]

/-- A bitmap for 2 TiB, of which 256 pages are free. -/
def forkPhys : PhysMem where
  physMap i := if i = 4 then 0#64 else 0xFFFFFFFFFFFFFFFF#64
  physSize := 2 ^ 23
  size_ge := by decide
  size_le := by decide

def treeState (pt data : Frame) : PageState :=
  ⟨linkMem (treeLinks pt data), forkPhys, 0x150000#64, 0xFFFFFFFFC0153000#64, 0x150000#64, 0, true⟩

/-- The paths of its tables, and of the page. -/
def treePaths (pt data f : Frame) : List (BitVec 9) :=
  if f = 0x150 then [] else if f = 0x151 then [511] else if f = 0x152 then [511, 511]
  else if f = 0x153 then kernelPath else if f = pt then [511, 511, 1]
  else if f = data then [511, 511, 1, 1] else []

/-- The page that `data` is mapped to. -/
def treePage : BitVec 64 := 0xFFFFFFFFC0201000#64

section

variable {pt data : Frame}

/-- An entry that leads somewhere is one of the list. -/
theorem treeState_link {f g : Frame} {i : BitVec 9}
    (h : ((treeState pt data).mem f i).next = some g) : (f, i, g) ∈ treeLinks pt data := by
  obtain ⟨hpresent, haddr⟩ := Pte.next_eq_some.mp h
  exact linkMem_next haddr (Pte.present_ne_zero hpresent)

/-- A walk ends in the root or where an entry leads. -/
theorem treeState_walk {p : List (BitVec 9)} {f : Frame} (hne : p ≠ [])
    (hf : (treeState pt data).walk 0x150 p = some f) : ∃ l ∈ treeLinks pt data, l.2.2 = f := by
  obtain ⟨q, i, rfl⟩ := (List.eq_nil_or_concat p).resolve_left hne
  rw [List.concat_eq_append, walk_concat] at hf
  obtain ⟨t, -, hnext⟩ := Option.bind_eq_some_iff.mp hf
  exact ⟨_, treeState_link hnext, rfl⟩

theorem forkPhys_taken {p : Nat} (hp : p / 64 ≠ 4) : ¬ allocatable forkPhys p := by
  rintro ⟨-, -, hused⟩
  have hword : forkPhys.physMap (p / 64) = BitVec.allOnes 64 := if_neg hp
  rw [PhysMap.used, hword, BitVec.getLsbD_allOnes, decide_eq_true (Nat.mod_lt p (by omega))] at hused
  cases hused

/-- What is asked of the entries, and can be checked one by one. -/
structure TreeLinks (pt data : Frame) : Prop where
  paths : (treeLinks pt data).all fun l => decide ((treePaths pt data l.1).length < 3 →
    treePaths pt data l.2.2 = treePaths pt data l.1 ++ [l.2.1])
  read : (treeLinks pt data).all fun l => decide ((treePaths pt data l.1).length < 3 →
    cutFrame l.2.2 = l.2.2)
  first : (treeLinks pt data).all fun l => decide (l.2.1 = 0 → l.1 = 0x152)
  taken : (treeLinks pt data).all fun l => decide (l.2.2.toNat / 64 ≠ 4)
  kernel : (treeState pt data).walk 0x150 kernelPath = some 0x153

theorem treeState_root : frameOf (treeState pt data).cr3 = 0x150 :=
  show frameOf 0x150000#64 = 0x150 by decide

theorem treeState_kptFrame : (treeState pt data).kptFrame = 0x153 :=
  show frameOf (0xFFFFFFFFC0153000#64 &&& 0x0FFFFFFF#64) = 0x153 by decide

theorem TreeLinks.path (h : TreeLinks pt data) {p : List (BitVec 9)} {f : Frame} (hp : p.length ≤ 3)
    (hf : (treeState pt data).walk 0x150 p = some f) : treePaths pt data f = p :=
  follow_eq_of_paths (treePaths pt data) rfl
    (fun _ _ _ hlen hnext => of_all h.paths _ (treeState_link hnext) hlen) hp hf

theorem TreeLinks.walk_taken (h : TreeLinks pt data) {p : List (BitVec 9)} {f : Frame}
    (hf : (treeState pt data).walk 0x150 p = some f) : ¬ (treeState pt data).free f := by
  apply forkPhys_taken
  by_cases hp : p = []
  · subst hp
    cases hf
    decide
  · obtain ⟨l, hl, rfl⟩ := treeState_walk hp hf
    exact of_all h.taken _ hl

theorem treeState_forkable (h : TreeLinks pt data) (hok : AllocsOk copyPages (treeState pt data)) :
    Forkable (treeState pt data) := by
  refine ⟨⟨?_, ?_, show 0xFFFFFFFFC0153000#64 &&& 0xFFF#64 = 0 by decide, ?_⟩, ?_, hok⟩
  · rw [treeState_root, treeState_kptFrame]
    exact fun p hp hf => (h.path hp hf).symm
  · rw [treeState_root, treeState_kptFrame]
    exact h.kernel
  · rw [treeState_root]
    exact fun p f _ hf => h.walk_taken hf
  · rw [treeState_root]
    intro v e _ he
    obtain ⟨t, ht, hmem, hpresent⟩ := look_eq_some.mp he
    apply h.walk_taken (p := tablePath v ++ [linearIndex 0 v])
    rw [walk_concat, ht, Option.bind_some, hmem]
    exact Pte.next_eq_some.mpr ⟨hpresent, rfl⟩

theorem treeState_read (h : TreeLinks pt data) : TablesRead (treeState pt data) 0x150 := by
  constructor
  · intro p f hne hp hf
    obtain ⟨q, i, rfl⟩ := (List.eq_nil_or_concat p).resolve_left hne
    rw [List.concat_eq_append] at hp hf
    rw [walk_concat] at hf
    obtain ⟨t, ht, hnext⟩ := Option.bind_eq_some_iff.mp hf
    have hlen : q.length < 3 := by
      rw [List.length_append, List.length_singleton] at hp
      omega
    have hpath := h.path (by omega) ht
    exact Or.inl (of_all h.read _ (treeState_link hnext) (by rw [hpath]; exact hlen))
  · intro p f hp _ hf haddr hcut
    have hne : (treeState pt data).mem f 0 ≠ 0 := by
      intro h0
      rw [h0] at haddr
      exact haddr (by decide)
    have htable := of_all h.first _ (linkMem_next rfl hne) rfl
    have hpath := h.path (by omega) hf
    rw [show f = 0x152 from htable] at hpath
    have hshort : treePaths pt data 0x152 = [511, 511] := rfl
    rw [← hpath, hshort] at hp
    cases hp

end

/-- The plain case: the tables are in frames of their own, and the page too. -/
theorem copyPages_forks_tree : ForkCopies (treeState 0x154 0x157) := by
  have hlinks : TreeLinks 0x154 0x157 :=
    ⟨by decide, by decide, by decide, by decide, by decide +kernel⟩
  have hcut : (treeLinks 0x154 0x157).all fun l => decide (cutFrame l.2.2 = l.2.2 ∧ l.2.2 ≠ 0) := by
    decide
  refine (copyPages_forks_iff (treeState_forkable hlinks (by decide +kernel))).1 ?_
  have hdata := (treeState_forkable hlinks (by decide +kernel)).data
  rw [treeState_root] at hdata ⊢
  -- the entry that maps a page
  have hlast : ∀ v e, tablePath v ≠ kernelPath → (treeState 0x154 0x157).translate 0x150 v = some e →
      e.address = 0x157 := by
    intro v e hv he
    obtain ⟨t, ht, hmem, hpresent⟩ := look_eq_some.mp he
    have hlink : ((treeState 0x154 0x157).mem t (linearIndex 0 v)).next = some e.address :=
      Pte.next_eq_some.mpr ⟨hmem ▸ hpresent, by rw [hmem]⟩
    have hpage : (treeLinks 0x154 0x157).all fun l => decide
        ((treePaths 0x154 0x157 l.1).length = 3 → l.2.2 = 0x157) := by decide
    have hpath := hlinks.path (p := tablePath v) (by simp [tablePath]) ht
    exact of_all hpage _ (treeState_link hlink) (by rw [hpath]; rfl)
  refine ⟨⟨treeState_read hlinks, fun v e hv he => ?_⟩, fun v e hv he hne => ⟨?_, ?_, ?_⟩⟩
  · have hpage := hlast v e hv he
    have hfree := hdata v e hv he
    rw [hpage] at hfree ⊢
    exact hfree
  · rintro ⟨q, f, hq, -, hf, h0⟩
    obtain ⟨l, hl, rfl⟩ := treeState_walk hq hf
    obtain ⟨hsame, hl0⟩ := of_all hcut _ hl
    exact hl0 (hsame.symm.trans h0)
  · rw [hlast v e hv he]
    decide
  · rw [hlast v e hv he]
    funext i
    refine shown_other (Or.inl ?_)
    rw [treeState_kptFrame]
    decide

/-- A page in frame 2^28 is shared with the copy; of one in frame 2^28 + 0x157 the copy shows the
bytes of frame 0x157. -/
theorem copyPages_forks_high :
    (Forkable (treeState 0x154 0x10000000) ∧ TablesRead (treeState 0x154 0x10000000) 0x150 ∧
      ¬ ForkCopies (treeState 0x154 0x10000000)) ∧
    (Forkable (treeState 0x154 0x10000157) ∧ TablesRead (treeState 0x154 0x10000157) 0x150 ∧
      ¬ ForkCopies (treeState 0x154 0x10000157)) := by
  have hshared : TreeLinks 0x154 0x10000000 :=
    ⟨by decide, by decide, by decide, by decide, by decide +kernel⟩
  have hother : TreeLinks 0x154 0x10000157 :=
    ⟨by decide, by decide, by decide, by decide, by decide +kernel⟩
  have hpath : tablePath treePage ≠ kernelPath := by decide
  obtain ⟨hallocs, hsame⟩ : AllocsOk copyPages (treeState 0x154 0x10000000) ∧
      (copyPages.run pageExec (treeState 0x154 0x10000000)).2.translate
        (frameOf (copyPages.run pageExec (treeState 0x154 0x10000000)).1) treePage =
          some (calcPage 0x10000000000#64) := by decide +kernel
  obtain ⟨hallocs', hzero⟩ : AllocsOk copyPages (treeState 0x154 0x10000157) ∧
      ((copyPages.run pageExec (treeState 0x154 0x10000157)).2.translate
        (frameOf (copyPages.run pageExec (treeState 0x154 0x10000157)).1) treePage).map
          (fun e => (copyPages.run pageExec (treeState 0x154 0x10000157)).2.mem e.address 5) =
        some 0 := by decide +kernel
  refine ⟨⟨treeState_forkable hshared hallocs, treeState_read hshared, ?_⟩,
    treeState_forkable hother hallocs', treeState_read hother, ?_⟩
  · intro hcopies
    obtain ⟨e', he', ⟨hfree, -⟩, -⟩ := hcopies.copied treePage (calcPage 0x10000000000#64) hpath
      (by decide +kernel) (by decide)
    rw [hsame] at he'
    cases he'
    exact forkPhys_taken (by decide) hfree
  · intro hcopies
    obtain ⟨e', he', -, hbytes, -⟩ := hcopies.copied treePage (calcPage 0x10000157000#64) hpath
      (by decide +kernel) (by decide)
    rw [he', Option.map_some, hbytes] at hzero
    exact absurd hzero (by decide +kernel)

end OS64.Mm
