import OS64.Kernel.Task
import OS64.Lib.X86

/-!
# The stacks of interrupts (`kernel/task.c`)

`tss_init_common` fills the task-state segment of every processor. A gate names one of seven stacks
in it, by a number: the second is that of page faults, the third that of system calls, and the other
five are one stack, of which nothing keeps two interrupts apart.

`curr`, which `tss_init_common` clears as well, is not part of this.
-/

namespace OS64.X86

open OS64.Lib OS64.Lib.X86
open OS64.Kernel (maxCpuNr)

/-! ## Stores apart from each other -/

/-- Quadwords stored one after the other, at offsets from `a`. -/
def stFields (a : BitVec 64) (l : List (Nat × BitVec 64)) (m : ByteMem) : ByteMem :=
  l.foldl (fun m p => st m (a + BitVec.ofNat 64 p.1) p.2) m

/-- The second quadword is behind the first. -/
def FieldBehind (p q : Nat × BitVec 64) : Prop := p.1 + 8 ≤ q.1

section Fields

variable {a : BitVec 64} {l : List (Nat × BitVec 64)} {m : ByteMem} {p : Nat × BitVec 64}

theorem offset_toNat {n : Nat} (h : a.toNat + n < 2 ^ 64) :
    (a + BitVec.ofNat 64 n).toNat = a.toNat + n := by
  rw [BitVec.toNat_add, BitVec.toNat_ofNat]
  omega

/-- Bytes that are in none of the fields. -/
theorem stFields_out {x : Nat} : ∀ {l : List (Nat × BitVec 64)} {m : ByteMem},
    (∀ q ∈ l, a.toNat + q.1 + 8 ≤ 2 ^ 64) →
    (∀ q ∈ l, x < a.toNat + q.1 ∨ a.toNat + q.1 + 8 ≤ x) → stFields a l m x = m x := by
  intro l
  induction l with
  | nil => exact fun _ _ => rfl
  | cons q l ih =>
    intro m hfits hout
    have hq := hfits q List.mem_cons_self
    have hx := hout q List.mem_cons_self
    have haddr := @offset_toNat a q.1 (by omega)
    rw [stFields, List.foldl_cons]
    refine (ih (fun q hq => hfits q (List.mem_cons_of_mem _ hq))
      fun q hq => hout q (List.mem_cons_of_mem _ hq)).trans (st_apply_out ?_)
    rw [haddr]
    exact hx

/-- Each field has its value in the end. -/
theorem ld_stFields : ∀ {l : List (Nat × BitVec 64)} {m : ByteMem},
    (∀ q ∈ l, a.toNat + q.1 + 8 ≤ 2 ^ 64) → l.Pairwise FieldBehind → p ∈ l →
    ld (stFields a l m) (a + BitVec.ofNat 64 p.1) = p.2 := by
  intro l
  induction l with
  | nil => exact fun _ _ hp => absurd hp List.not_mem_nil
  | cons q l ih =>
    intro m hfits hpair hp
    obtain ⟨hfirst, hrest⟩ := List.pairwise_cons.mp hpair
    have hfits' : ∀ q ∈ l, a.toNat + q.1 + 8 ≤ 2 ^ 64 :=
      fun q hq => hfits q (List.mem_cons_of_mem _ hq)
    rw [stFields, List.foldl_cons]
    rcases List.mem_cons.mp hp with heq | hmem
    · have hq := hfits q List.mem_cons_self
      have haddr := @offset_toNat a q.1 (by omega)
      rw [heq]
      refine Eq.trans (ld_congr fun x hx hx' => stFields_out hfits' fun r hr => ?_)
        (ld_st_same m _ _)
      have hapart := hfirst r hr
      unfold FieldBehind at hapart
      omega
    · exact ih hfits' hrest hmem

end Fields

/-! ## The segments -/

/-- Where `IntrTss` and the three arrays of stacks are. -/
structure TssImage where
  intrTss : BitVec 64
  intrS : BitVec 64
  faultS : BitVec 64
  callS : BitVec 64
  tss_fits : intrTss.toNat + 104 * maxCpuNr ≤ 2 ^ 64
  intrS_fits : intrS.toNat + 8192 * maxCpuNr ≤ 2 ^ 64
  faultS_fits : faultS.toNat + 8192 * maxCpuNr ≤ 2 ^ 64
  callS_fits : callS.toNat + 8192 * maxCpuNr ≤ 2 ^ 64
  intr_fault : intrS.toNat + 8192 * maxCpuNr ≤ faultS.toNat ∨
    faultS.toNat + 8192 * maxCpuNr ≤ intrS.toNat
  intr_call : intrS.toNat + 8192 * maxCpuNr ≤ callS.toNat ∨
    callS.toNat + 8192 * maxCpuNr ≤ intrS.toNat
  fault_call : faultS.toNat + 8192 * maxCpuNr ≤ callS.toNat ∨
    callS.toNat + 8192 * maxCpuNr ≤ faultS.toNat

/-- `&s[id][1022]`, for one of the arrays. -/
def stackTop (s : BitVec 64) (id : Nat) : BitVec 64 := s + BitVec.ofNat 64 (8 * (1024 * id + 1022))

/-- `sizeof(TSS64)` and the fields `rsp0` and `ist1`. -/
def tssSize : Nat := 104
def tssRsp0 : Nat := 4
def tssIst1 : Nat := 36

section Code

variable (img : TssImage)

/-- The assignments of one round of `tss_init_common`. -/
def tssFields (id : Nat) : List (Nat × BitVec 64) :=
  [(tssSize * id + tssRsp0, stackTop img.intrS id),
    (tssSize * id + tssRsp0 + 8, stackTop img.intrS id),
    (tssSize * id + tssRsp0 + 16, stackTop img.intrS id),
    (tssSize * id + tssIst1, stackTop img.intrS id),
    (tssSize * id + tssIst1 + 8, stackTop img.faultS id),
    (tssSize * id + tssIst1 + 16, stackTop img.callS id),
    (tssSize * id + tssIst1 + 24, stackTop img.intrS id),
    (tssSize * id + tssIst1 + 32, stackTop img.intrS id),
    (tssSize * id + tssIst1 + 40, stackTop img.intrS id),
    (tssSize * id + tssIst1 + 48, stackTop img.intrS id)]

/-- `tss_init_common`. -/
@[irreducible] def tssInitCommon (m : ByteMem) : ByteMem :=
  (List.range maxCpuNr).foldl (fun m id => stFields img.intrTss (tssFields img id) m) m

/-- The stack that the processor `id` takes for a gate with the number `ist`, which is not 0. -/
def istStack (m : ByteMem) (id : Nat) (ist : BitVec 3) : BitVec 64 :=
  ld m (img.intrTss + BitVec.ofNat 64 (tssSize * id + tssIst1 + 8 * (ist.toNat - 1)))

/-- The array that it is to be in. -/
def stackArray (ist : BitVec 3) : BitVec 64 :=
  if ist = 2 then img.faultS else if ist = 3 then img.callS else img.intrS

/-- Which stack it is to be. -/
def stackOf (id : Nat) (ist : BitVec 3) : BitVec 64 := stackTop (stackArray img ist) id

end Code

section Spec

variable (img : TssImage)

/-- All that is written, as one list. -/
def allFields : List (Nat × BitVec 64) := (List.range maxCpuNr).flatMap (tssFields img)

theorem tssInitCommon_eq (m : ByteMem) :
    tssInitCommon img m = stFields img.intrTss (allFields img) m := by
  unfold tssInitCommon allFields stFields
  rw [List.foldl_flatMap]

/-- The fields of a segment are in it. -/
theorem tssFields_range {id : Nat} {q : Nat × BitVec 64} (h : q ∈ tssFields img id) :
    tssSize * id + 4 ≤ q.1 ∧ q.1 + 8 ≤ tssSize * (id + 1) := by
  simp only [tssFields, List.mem_cons, List.not_mem_nil, or_false] at h
  unfold tssSize tssRsp0 tssIst1 at *
  rcases h with h | h | h | h | h | h | h | h | h | h <;>
  · rw [h]
    dsimp only
    omega

theorem tssFields_apart (id : Nat) : (tssFields img id).Pairwise FieldBehind := by
  simp only [tssFields, List.pairwise_cons, List.mem_cons, List.not_mem_nil, or_false,
    forall_eq_or_imp, forall_eq, FieldBehind, tssSize, tssRsp0, tssIst1, List.Pairwise.nil,
    and_true, false_implies, implies_true]
  omega

theorem allFields_apart : (allFields img).Pairwise FieldBehind := by
  unfold allFields
  rw [List.pairwise_flatMap]
  refine ⟨fun id _ => tssFields_apart img id, List.pairwise_lt_range.imp ?_⟩
  intro i j hij p hp q hq
  have hp' := tssFields_range img hp
  have hq' := tssFields_range img hq
  unfold tssSize at hp' hq'
  unfold FieldBehind
  omega

theorem allFields_fit {q : Nat × BitVec 64} (h : q ∈ allFields img) :
    q.1 + 8 ≤ 104 * maxCpuNr := by
  obtain ⟨id, hid, hq⟩ := List.mem_flatMap.mp h
  have hlt := List.mem_range.mp hid
  have hrange := tssFields_range img hq
  unfold tssSize at hrange
  unfold maxCpuNr at *
  omega

/-- Nothing outside the segments is written. -/
theorem tssInitCommon_out (m : ByteMem) {x : Nat}
    (hx : x < img.intrTss.toNat ∨ img.intrTss.toNat + 104 * maxCpuNr ≤ x) :
    tssInitCommon img m x = m x := by
  have hfits := img.tss_fits
  rw [tssInitCommon_eq]
  refine stFields_out (fun q hq => ?_) fun q hq => ?_
  · have hq' := allFields_fit img hq
    omega
  · have hq' := allFields_fit img hq
    omega

/-- The field that a gate names is one of them. -/
theorem istField_mem {id : Nat} (hid : id < maxCpuNr) {ist : BitVec 3} (hist : ist ≠ 0) :
    (tssSize * id + tssIst1 + 8 * (ist.toNat - 1), stackOf img id ist) ∈ allFields img := by
  refine List.mem_flatMap.mpr ⟨id, List.mem_range.mpr hid, ?_⟩
  have hcases : ∀ ist : BitVec 3, ist ≠ 0 → ist = 1 ∨ ist = 2 ∨ ist = 3 ∨ ist = 4 ∨ ist = 5 ∨
      ist = 6 ∨ ist = 7 := by decide
  rcases hcases ist hist with h | h | h | h | h | h | h <;>
  · rw [h]
    simp [tssFields, stackOf, stackArray]

/-- Behind `tss_init_common`, and as long as the segments are not written, every processor finds its
stacks. -/
theorem istStack_eq {m m' : ByteMem} (hmem : ∀ x, img.intrTss.toNat ≤ x →
      x < img.intrTss.toNat + 104 * maxCpuNr → m' x = tssInitCommon img m x)
    {id : Nat} (hid : id < maxCpuNr) {ist : BitVec 3} (hist : ist ≠ 0) :
    istStack img m' id ist = stackOf img id ist := by
  have hfits := img.tss_fits
  have hmember := istField_mem img hid hist
  obtain ⟨n, hn⟩ : ∃ n, tssSize * id + tssIst1 + 8 * (ist.toNat - 1) = n := ⟨_, rfl⟩
  unfold istStack
  rw [hn] at hmember ⊢
  have hrange := allFields_fit img hmember
  dsimp only at hrange
  have hwithin : ∀ q ∈ allFields img, img.intrTss.toNat + q.1 + 8 ≤ 2 ^ 64 := by
    intro q hq
    have hq' := allFields_fit img hq
    omega
  have hload := @ld_stFields img.intrTss (n, stackOf img id ist) (allFields img) m hwithin
    (allFields_apart img) hmember
  dsimp only at hload
  refine Eq.trans (ld_congr fun x hx hx' => ?_) hload
  have haddr := @offset_toNat img.intrTss n (by omega)
  rw [haddr] at hx hx'
  rw [← tssInitCommon_eq]
  exact hmem x (by omega) (by omega)

theorem stackArray_cases (ist : BitVec 3) : stackArray img ist = img.intrS ∨
    stackArray img ist = img.faultS ∨ stackArray img ist = img.callS := by
  unfold stackArray
  split
  · exact Or.inr (Or.inl rfl)
  · split
    · exact Or.inr (Or.inr rfl)
    · exact Or.inl rfl

/-- The three arrays do not overlap. -/
theorem arrays_apart {a b : BitVec 3} (h : stackArray img a ≠ stackArray img b) :
    (stackArray img a).toNat + 8192 * maxCpuNr ≤ (stackArray img b).toNat ∨
      (stackArray img b).toNat + 8192 * maxCpuNr ≤ (stackArray img a).toNat := by
  have hIF := img.intr_fault
  have hIC := img.intr_call
  have hFC := img.fault_call
  rcases stackArray_cases img a with ha | ha | ha
  all_goals
    rcases stackArray_cases img b with hb | hb | hb
    all_goals
      rw [ha, hb] at h ⊢
      first
      | exact absurd rfl h
      | omega

theorem stackOf_toNat {id : Nat} (hid : id < maxCpuNr) (ist : BitVec 3) :
    (stackOf img id ist).toNat = (stackArray img ist).toNat + 8192 * id + 8176 := by
  have hfits : (stackArray img ist).toNat + 8192 * maxCpuNr ≤ 2 ^ 64 := by
    rcases stackArray_cases img ist with h | h | h
    · rw [h]
      exact img.intrS_fits
    · rw [h]
      exact img.faultS_fits
    · rw [h]
      exact img.callS_fits
  unfold maxCpuNr at hid hfits
  unfold stackOf stackTop
  rw [offset_toNat (by omega)]
  omega

/-- The stacks of two processors, and on one processor those in two arrays, do not share a byte,
each being all of its row up to the top and the two words behind it. -/
theorem stacks_apart {i j : Nat} (hi : i < maxCpuNr) (hj : j < maxCpuNr) {a b : BitVec 3}
    (h : i ≠ j ∨ stackArray img a ≠ stackArray img b) :
    (stackOf img i a).toNat + 16 ≤ (stackOf img j b).toNat - 8176 ∨
      (stackOf img j b).toNat + 16 ≤ (stackOf img i a).toNat - 8176 := by
  rw [stackOf_toNat img hi, stackOf_toNat img hj]
  by_cases hsame : stackArray img a = stackArray img b
  · rw [hsame]
    have hij : i ≠ j := by
      rcases h with h | h
      · exact h
      · exact absurd hsame h
    omega
  · have hapart := arrays_apart img hsame
    unfold maxCpuNr at hi hj hapart
    omega

end Spec

end OS64.X86
