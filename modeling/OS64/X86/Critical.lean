import OS64.Mm.PageRun
import Mathlib.Combinatorics.Enumerative.DyckWord

/-!
# Critical sections (`x86_64/intr.c`)

`intr_disable` counts up and masks interrupts, `intr_enable` counts down and unmasks them
at zero: the counter is what lets critical sections nest. It has eight bits, and it does
not say how the interrupt flag stood when the first section began. Where both are right,
and only there, a nest of sections keeps interrupts off and leaves the flag as it was
(`critical_sections_iff`).

Mirroring notes:
- `apic_get_id` names the same processor in both functions of a pair, so its element of
  `intr_sema` is all there is of the array here.
- An `intr_enable` without a section executes `hlt`. With interrupts off nothing ends
  that: the processor stops, which is `none`. With interrupts on the next one does, and
  its handler leaves counter and flag as they are.
- A properly nested sequence of calls is a Dyck word, `U` for `intr_disable` and `D` for
  `intr_enable`.
-/

namespace OS64.X86

open OS64.Lib OS64.Mm DyckStep

/-- `intr_sema` of the processor and its interrupt flag. -/
structure IntrState where
  sema : BitVec 8
  intf : Bool
deriving DecidableEq, Repr

/-- `hlt`. -/
def hlt (s : IntrState) : Option IntrState := if s.intf then some s else none

/-- `intr_disable`. -/
def IntrState.disable (s : IntrState) : IntrState := ⟨s.sema + 1, false⟩

/-- `intr_enable`. -/
def IntrState.enable (s : IntrState) : Option IntrState := do
  let s₁ ← if s.sema = 0 then hlt s else some s
  let s₂ := { s₁ with sema := s₁.sema - 1 }
  if s₂.sema = 0 then some { s₂ with intf := true } else some s₂

/-- One call. -/
def intrCall (s : IntrState) : DyckStep → Option IntrState
  | U => some s.disable
  | D => s.enable

/-- The calls one after the other. -/
def intrCalls (l : List DyckStep) (s : IntrState) : Option IntrState := l.foldlM intrCall s

/-- The sections that the calls have opened and not closed. -/
def openSections (l : List DyckStep) : Nat := l.count U - l.count D

/-- During the calls of `w` interrupts are off whenever a section is open, and behind the
last one counter and flag are what they were in front of the first. -/
structure NestsAndRestores (w : DyckWord) (s : IntrState) : Prop where
  off : ∀ p, p <+: w.toList → 0 < openSections p → ∀ t, intrCalls p s = some t → t.intf = false
  restored : intrCalls w.toList s = some s

/-! ## Single calls -/

theorem intrCalls_concat (p : List DyckStep) (c : DyckStep) (s : IntrState) :
    intrCalls (p ++ [c]) s = (intrCalls p s).bind fun t => intrCall t c := by
  unfold intrCalls
  rw [List.foldlM_append]
  cases p.foldlM intrCall s with
  | none => rfl
  | some t =>
    show List.foldlM intrCall t [c] = intrCall t c
    rw [List.foldlM_cons]
    cases intrCall t c <;> rfl

/-- An `intr_enable` that closes a section. -/
theorem enable_open {s : IntrState} (h : s.sema ≠ 0) :
    s.enable = some ⟨s.sema - 1, s.intf || decide (s.sema - 1 = 0)⟩ := by
  unfold IntrState.enable
  rw [if_neg h]
  show (if s.sema - 1 = 0 then some (IntrState.mk (s.sema - 1) true)
    else some (IntrState.mk (s.sema - 1) s.intf)) = _
  by_cases h1 : s.sema - 1 = 0
  · rw [if_pos h1, decide_eq_true h1, Bool.or_true]
  · rw [if_neg h1, decide_eq_false h1, Bool.or_false]

/-- An `intr_enable` with the counter at zero and interrupts off stops the processor. -/
theorem enable_stops {s : IntrState} (h : s.sema = 0) (hoff : s.intf = false) : s.enable = none := by
  simp [IntrState.enable, hlt, h, hoff]

theorem enable_sema {s t : IntrState} (h : s.enable = some t) : t.sema = s.sema - 1 := by
  by_cases h0 : s.sema = 0
  · cases hoff : s.intf with
    | false =>
      rw [enable_stops h0 hoff] at h
      cases h
    | true =>
      simp [IntrState.enable, hlt, h0, hoff] at h
      simp [← h, h0]
  · rw [enable_open h0] at h
    cases h
    rfl

theorem intrCall_sema {s t : IntrState} {c : DyckStep} (h : intrCall s c = some t) :
    t.sema = match c with | U => s.sema + 1 | D => s.sema - 1 := by
  cases c with
  | U =>
    cases h
    rfl
  | D => exact enable_sema h

/-! ## Counting -/

theorem openSections_disable {p : List DyckStep} (h : p.count D ≤ p.count U) :
    openSections (p ++ [U]) = openSections p + 1 := by
  simp only [openSections, List.count_append, List.count_singleton]
  simp
  omega

theorem openSections_enable {p : List DyckStep} (h : (p ++ [D]).count D ≤ (p ++ [D]).count U) :
    openSections p = openSections (p ++ [D]) + 1 := by
  simp only [openSections, List.count_append, List.count_singleton] at h ⊢
  simp at h ⊢
  omega

/-- In every prefix of nested calls at most as many sections are closed as were opened. -/
theorem count_le {w : DyckWord} {p : List DyckStep} (hp : p <+: w.toList) :
    p.count D ≤ p.count U := by
  rw [List.prefix_iff_eq_take.mp hp]
  exact w.count_D_le_count_U _

theorem openSections_all (w : DyckWord) : openSections w.toList = 0 := by
  rw [openSections, w.count_U_eq_count_D, Nat.sub_self]

/-- The counter after some of the calls. -/
theorem intrCalls_sema {w : DyckWord} {s t : IntrState} {p : List DyckStep} (hp : p <+: w.toList)
    (h : intrCalls p s = some t) : t.sema = s.sema + BitVec.ofNat 8 (openSections p) := by
  induction p using List.reverseRecOn generalizing t with
  | nil =>
    cases h
    simp [openSections]
  | append_singleton p c ih =>
    have hp' : p <+: w.toList := (List.prefix_append p [c]).trans hp
    rw [intrCalls_concat] at h
    obtain ⟨u, hu, hc⟩ := Option.bind_eq_some_iff.mp h
    have hsema := intrCall_sema hc
    rw [ih hp' hu] at hsema
    cases c with
    | U =>
      rw [hsema, openSections_disable (count_le hp'), BitVec.ofNat_add]
      exact BitVec.add_assoc _ _ _
    | D =>
      rw [hsema, openSections_enable (count_le hp), BitVec.ofNat_add, ← BitVec.add_assoc]
      exact BitVec.add_sub_cancel _ _

/-! ## The sections that go well -/

/-- With the flag where the counter says it is and no overflow, the counter goes up and
down and the flag comes back with the last section. -/
theorem intrCalls_nested {w : DyckWord} {s : IntrState} (hflag : s.intf = true ↔ s.sema = 0)
    (hroom : ∀ p, p <+: w.toList → s.sema.toNat + openSections p < 256) {p : List DyckStep}
    (hp : p <+: w.toList) : intrCalls p s =
      some ⟨s.sema + BitVec.ofNat 8 (openSections p), decide (openSections p = 0) && s.intf⟩ := by
  induction p using List.reverseRecOn with
  | nil => simp [intrCalls, openSections]
  | append_singleton p c ih =>
    have hp' : p <+: w.toList := (List.prefix_append p [c]).trans hp
    have hlt := hroom p hp'
    rw [intrCalls_concat, ih hp', Option.bind_some]
    cases c with
    | U =>
      rw [openSections_disable (count_le hp')]
      simp [intrCall, IntrState.disable, BitVec.ofNat_add, BitVec.add_assoc]
    | D =>
      -- a section is open, so the counter is not zero
      have hopen := openSections_enable (count_le hp)
      generalize openSections (p ++ [D]) = k at hopen ⊢
      rw [hopen] at hlt ⊢
      have hne : s.sema + BitVec.ofNat 8 (k + 1) ≠ 0 := by bv_omega
      have hsub : s.sema + BitVec.ofNat 8 (k + 1) - 1 = s.sema + BitVec.ofNat 8 k := by
        rw [BitVec.ofNat_add, ← BitVec.add_assoc]
        exact BitVec.add_sub_cancel _ _
      show IntrState.enable _ = _
      rw [enable_open hne]
      simp only [hsub]
      by_cases hk : k = 0
      · subst hk
        cases hs : s.intf <;> simp_all
      · have hpos : s.sema + BitVec.ofNat 8 k ≠ 0 := by bv_omega
        simpa [hk] using hpos

/-! ## The sections that do not -/

/-- Nested calls that open `d` sections at some point close the last of these later. -/
theorem exists_close {w : DyckWord} {d : Nat} (hd : 0 < d) :
    ∀ (r p : List DyckStep), p ++ r = w.toList → d ≤ openSections p →
      ∃ q, q ++ [D] <+: w.toList ∧ openSections q = d := by
  intro r
  induction r with
  | nil =>
    intro p hp hle
    rw [List.append_nil] at hp
    rw [hp, openSections_all] at hle
    omega
  | cons c r ih =>
    intro p hp hle
    have hsplit : (p ++ [c]) ++ r = w.toList := by
      rw [List.append_assoc]
      exact hp
    have hpre : p ++ [c] <+: w.toList := ⟨r, hsplit⟩
    cases c with
    | U =>
      have hup := openSections_disable (count_le ((List.prefix_append p [U]).trans hpre))
      exact ih _ hsplit (by omega)
    | D =>
      have hdown := openSections_enable (count_le hpre)
      by_cases heq : openSections p = d
      · exact ⟨p, hpre, heq⟩
      · exact ih _ hsplit (by omega)

/-- A prefix of calls that all return returns. -/
theorem intrCalls_prefix {l p : List DyckStep} {s t : IntrState} (h : intrCalls l s = some t)
    (hp : p <+: l) : ∃ u, intrCalls p s = some u := by
  obtain ⟨r, rfl⟩ := hp
  unfold intrCalls at h ⊢
  rw [List.foldlM_append] at h
  obtain ⟨u, hu, -⟩ := Option.bind_eq_some_iff.mp h
  exact ⟨u, hu⟩

/-- The counter must not come round to zero: the next `intr_enable` would find it there
with interrupts off. -/
theorem room_of_nests {w : DyckWord} {s : IntrState} (h : NestsAndRestores w s)
    {p : List DyckStep} (hp : p <+: w.toList) : s.sema.toNat + openSections p < 256 := by
  by_contra hover
  have hsema := s.sema.isLt
  obtain ⟨r, hr⟩ := hp
  obtain ⟨q, hq, hopen⟩ := exists_close (d := 256 - s.sema.toNat) (by omega) r p hr (by omega)
  have hq' : q <+: w.toList := (List.prefix_append q [D]).trans hq
  obtain ⟨t, ht⟩ := intrCalls_prefix h.restored hq'
  have hoff := h.off q hq' (by omega) t ht
  have hzero : t.sema = 0 := by
    rw [intrCalls_sema hq' ht, hopen]
    bv_omega
  obtain ⟨u, hu⟩ := intrCalls_prefix h.restored hq
  rw [intrCalls_concat, ht, Option.bind_some] at hu
  have hstop : intrCall t D = none := enable_stops hzero hoff
  rw [hstop] at hu
  cases hu

/-- The last `intr_enable` sets the flag just when it brings the counter to zero. -/
theorem flag_of_nests {w : DyckWord} {s : IntrState} (h : NestsAndRestores w s) (hw : w ≠ 0) :
    s.intf = true ↔ s.sema = 0 := by
  have hne : w.toList ≠ [] := fun hnil => hw (DyckWord.toList_eq_nil.mp hnil)
  have hlast := List.dropLast_concat_getLast hne
  rw [DyckWord.getLast_eq_D w hne] at hlast
  have hpre : w.toList.dropLast ++ [D] <+: w.toList := by rw [hlast]
  have hopen := openSections_enable (count_le hpre)
  rw [hlast, openSections_all] at hopen
  have hp : w.toList.dropLast <+: w.toList := List.dropLast_prefix _
  have hrun := h.restored
  rw [← hlast, intrCalls_concat] at hrun
  obtain ⟨t, ht, henable⟩ := Option.bind_eq_some_iff.mp hrun
  have hoff := h.off _ hp (by omega) t ht
  have ht0 : t.sema ≠ 0 := by
    intro hzero
    rw [show intrCall t D = t.enable from rfl, enable_stops hzero hoff] at henable
    cases henable
  rw [show intrCall t D = t.enable from rfl, enable_open ht0, hoff, Bool.false_or] at henable
  cases henable
  simp

/-- A nest of critical sections keeps interrupts off while it lasts and leaves flag and
counter as they were exactly when it is empty, or when interrupts were on just if no
section was open and the counter has room for the deepest section. -/
theorem critical_sections_iff (w : DyckWord) (s : IntrState) :
    NestsAndRestores w s ↔ w = 0 ∨
      ((s.intf = true ↔ s.sema = 0) ∧
        ∀ p, p <+: w.toList → s.sema.toNat + openSections p < 256) := by
  constructor
  · intro h
    by_cases hw : w = 0
    · exact Or.inl hw
    · exact Or.inr ⟨flag_of_nests h hw, fun p hp => room_of_nests h hp⟩
  · rintro (rfl | ⟨hflag, hroom⟩)
    · refine ⟨fun p hp hopen => ?_, rfl⟩
      rw [List.prefix_nil.mp hp] at hopen
      exact absurd hopen (Nat.lt_irrefl 0)
    · refine ⟨fun p hp hopen t ht => ?_, ?_⟩
      · rw [intrCalls_nested hflag hroom hp] at ht
        cases ht
        simp [Nat.ne_of_gt hopen]
      · rw [intrCalls_nested hflag hroom List.prefix_rfl, openSections_all]
        simp

/-- One pair of calls in the handler of an interrupt gate, which is entered with interrupts
off and no section open: it leaves them on. -/
theorem critical_section_in_handler :
    ¬ NestsAndRestores (DyckWord.nest 0) ⟨0, false⟩ ∧
      intrCalls (DyckWord.nest 0).toList ⟨0, false⟩ = some ⟨0, true⟩ := by
  have hrun : intrCalls (DyckWord.nest 0).toList ⟨0, false⟩ = some ⟨0, true⟩ := by decide
  refine ⟨fun h => ?_, hrun⟩
  have hrest := h.restored
  rw [hrun] at hrest
  exact absurd hrest (by decide)

/-! ## `mount_page_t` -/

/-- What `mm/page.c` sees of the interrupts. -/
def pageIntr (s : PageState) : IntrState := ⟨s.sema, s.intf⟩

/-- `mount_page_t` is a critical section of its own, so it leaves the interrupts as they
were just where these agree with the counter: not in the page fault handler. -/
theorem mountPageT_intr_iff (phys : BitVec 64) (s : PageState) :
    pageIntr ((mountPageT phys).run pageExec s).2 = pageIntr s ↔ (s.intf = true ↔ s.sema = 0) := by
  rw [run_mountPageT]
  show IntrState.mk s.sema (decide (s.sema = 0)) = ⟨s.sema, s.intf⟩ ↔ _
  cases hs : s.intf <;> simp

end OS64.X86
