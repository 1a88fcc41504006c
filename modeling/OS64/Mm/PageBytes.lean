import OS64.Mm.PageAnon

/-!
# Bytes at virtual addresses

What a load or a store of kernel code does: the address is translated in the tree
under `CR3` and the byte is one of the frame it leads to. An address that leads
nowhere faults; `_page_fault` repairs a fault above `kernel_heap`, after which the
instruction is tried again, and reports every other one for good.

A store changes the one byte of its frame. Where that frame is none of the tables,
no translation changes with it (`frameAt_storeAt`).

Mirroring notes:
- An access walks the tables as they are: no stale translation is used.
- Kernel code writes wherever an entry is present, its `writable` bit aside.
- An address that is not canonical faults and is not repaired.
-/

namespace OS64.Mm

open OS64.Lib

/-! ## Bytes of a frame -/

/-- The offset in its page of an address. -/
def pageOffset (v : BitVec 64) : BitVec 12 := v.extractLsb' 0 12

/-- The byte at offset `o`. -/
def pageByte (p : Page) (o : BitVec 12) : BitVec 8 :=
  (p (o.extractLsb' 3 9)).extractLsb' (8 * (o.extractLsb' 0 3).toNat) 8

/-- Byte `n` of a word replaced. -/
def setWordByte (w : BitVec 64) (n : Nat) (b : BitVec 8) : BitVec 64 :=
  (w &&& ~~~ (0xFF#64 <<< (8 * n))) ||| (b.setWidth 64 <<< (8 * n))

/-- The byte at offset `o` replaced. -/
def setPageByte (p : Page) (o : BitVec 12) (b : BitVec 8) : Page := fun j =>
  if j = o.extractLsb' 3 9 then setWordByte (p j) (o.extractLsb' 0 3).toNat b else p j

theorem extractLsb'_setWordByte (w : BitVec 64) {n m : Nat} (hn : n < 8) (hm : m < 8) (b : BitVec 8) :
    (setWordByte w n b).extractLsb' (8 * m) 8 =
      if m = n then b else w.extractLsb' (8 * m) 8 := by
  have hmask : ∀ k, k < 64 → (0xFF#64 <<< (8 * n)).getLsbD k = decide (8 * n ≤ k ∧ k < 8 * n + 8) := by
    intro k hk
    have hff : ∀ k, (0xFF#64).getLsbD k = decide (k < 8) := by
      intro k
      rw [show (0xFF#64) = (BitVec.allOnes 8).setWidth 64 from rfl, BitVec.getLsbD_setWidth,
        BitVec.getLsbD_allOnes]
      by_cases h8 : k < 8
      · simp [h8, show k < 64 by omega]
      · simp [h8]
    rw [BitVec.getLsbD_shiftLeft, hff]
    by_cases h1 : k < 8 * n
    · simp [h1, show ¬ 8 * n ≤ k by omega]
    · simp [h1, hk, show 8 * n ≤ k by omega]
      omega
  apply BitVec.eq_of_getLsbD_eq
  intro i hi
  rw [BitVec.getLsbD_extractLsb', setWordByte, BitVec.getLsbD_or, BitVec.getLsbD_and,
    BitVec.getLsbD_not, hmask _ (by omega), BitVec.getLsbD_shiftLeft, BitVec.getLsbD_setWidth]
  by_cases hmn : m = n
  · subst hmn
    simp [hi, show 8 * m + i < 64 by omega, show ¬ 8 * m + i < 8 * m by omega, show i < 64 by omega]
  · rw [if_neg hmn, BitVec.getLsbD_extractLsb']
    -- Another byte: either the mask or the shifted byte is past its end.
    by_cases hlt : m < n
    · simp [hi, show 8 * m + i < 64 by omega, show 8 * m + i < 8 * n by omega,
        show ¬ 8 * n ≤ 8 * m + i by omega]
    · have hb : b.getLsbD (8 * m + i - 8 * n) = false := BitVec.getLsbD_of_ge _ _ (by omega)
      simp [hi, hb, show 8 * m + i < 64 by omega, show ¬ 8 * m + i < 8 * n + 8 by omega]

/-- An offset is told by its word and its place in it. -/
theorem offset_ext {o o' : BitVec 12} (hw : o'.extractLsb' 3 9 = o.extractLsb' 3 9)
    (hb : (o'.extractLsb' 0 3).toNat = (o.extractLsb' 0 3).toNat) : o' = o := by
  have hword := congrArg BitVec.toNat hw
  simp only [BitVec.extractLsb'_toNat, Nat.shiftRight_eq_div_pow] at hword hb
  apply BitVec.eq_of_toNat_eq
  have h := o.isLt
  have h' := o'.isLt
  omega

theorem pageByte_setPageByte (p : Page) (o o' : BitVec 12) (b : BitVec 8) :
    pageByte (setPageByte p o b) o' = if o' = o then b else pageByte p o' := by
  unfold pageByte setPageByte
  by_cases hw : o'.extractLsb' 3 9 = o.extractLsb' 3 9
  · have hlt := (o.extractLsb' 0 3).isLt
    have hlt' := (o'.extractLsb' 0 3).isLt
    rw [if_pos hw, extractLsb'_setWordByte _ hlt hlt']
    by_cases hb : (o'.extractLsb' 0 3).toNat = (o.extractLsb' 0 3).toNat
    · rw [if_pos hb, if_pos (offset_ext hw hb)]
    · rw [if_neg hb, if_neg fun h => hb (by rw [h])]
  · rw [if_neg hw, if_neg fun h => hw (by rw [h])]

/-! ## Addresses -/

/-- Bits 47 to 63 are all alike. -/
def canonical (v : BitVec 64) : Bool := decide (v.toNat < 2 ^ 47) || decide (2 ^ 64 - 2 ^ 47 ≤ v.toNat)

/-- The half of the kernel. -/
def kernelHalf (v : BitVec 64) : Prop := linearIndex 3 v = 511

instance (v : BitVec 64) : Decidable (kernelHalf v) := inferInstanceAs (Decidable (_ = _))

theorem linearIndex_toNat (l : Nat) (v : BitVec 64) :
    (linearIndex l v).toNat = v.toNat / 2 ^ (12 + 9 * l) % 512 := by
  rw [linearIndex, BitVec.extractLsb'_toNat, Nat.shiftRight_eq_div_pow]

/-- Two addresses are in the same page just when their bits 12 to 47 are the same. -/
theorem pagePath_eq_iff {v w : BitVec 64} :
    pagePath v = pagePath w ↔ v.toNat % 2 ^ 48 / 2 ^ 12 = w.toNat % 2 ^ 48 / 2 ^ 12 := by
  have hv := fun l => linearIndex_toNat l v
  have hw := fun l => linearIndex_toNat l w
  simp only [pagePath, List.cons.injEq, and_true, ← BitVec.toNat_inj, hv, hw]
  have h1 := v.isLt
  have h2 := w.isLt
  omega

theorem pageOffset_toNat (v : BitVec 64) : (pageOffset v).toNat = v.toNat % 2 ^ 12 := by
  rw [pageOffset, BitVec.extractLsb'_toNat, Nat.shiftRight_zero]

/-- A canonical address is told by its page and its offset. -/
theorem eq_of_page {v w : BitVec 64} (hv : canonical v = true) (hw : canonical w = true)
    (hpath : pagePath v = pagePath w) (hoff : pageOffset v = pageOffset w) : v = w := by
  have hpage := pagePath_eq_iff.mp hpath
  have ho := congrArg BitVec.toNat hoff
  rw [pageOffset_toNat, pageOffset_toNat] at ho
  unfold canonical at hv hw
  rw [Bool.or_eq_true, decide_eq_true_eq, decide_eq_true_eq] at hv hw
  have h1 := v.isLt
  have h2 := w.isLt
  apply BitVec.eq_of_toNat_eq
  omega

theorem canonical_low {v : BitVec 64} (h : v.toNat < 2 ^ 47) : canonical v = true := by
  rw [canonical, decide_eq_true h]
  rfl

/-! ## Loads and stores -/

/-- The frame of a virtual address. -/
def PageState.frameAt (s : PageState) (v : BitVec 64) : Option Frame :=
  if canonical v then (s.translate (frameOf s.cr3) v).map Pte.address else none

/-- The byte at a virtual address. -/
def PageState.byteAt (s : PageState) (v : BitVec 64) : Option (BitVec 8) :=
  (s.frameAt v).map fun f => pageByte (s.mem f) (pageOffset v)

/-- A byte stored in frame `f`, where `v` leads. -/
def PageState.storeAt (s : PageState) (f : Frame) (v : BitVec 64) (b : BitVec 8) : PageState :=
  { s with mem := setPage s.mem f (setPageByte (s.mem f) (pageOffset v) b) }

/-- The state an access to `v` finds once it goes through: a fault in the heap is repaired
first, any other one is the end. An address that is still not mapped faults for ever. -/
def PageState.touch (s : PageState) (kernelHeap reg1 v : BitVec 64) : Option PageState :=
  if (s.frameAt v).isSome then some s
  else if canonical v then
    let r := (pageFault kernelHeap v reg1).run pageExec s
    if r.1 && (r.2.frameAt v).isSome then some r.2 else none
  else none

/-- A load of the byte at `v`. -/
def PageState.loadByte (s : PageState) (kernelHeap v : BitVec 64) : Option (BitVec 8 × PageState) :=
  (s.touch kernelHeap 0#64 v).bind fun s' => (s'.byteAt v).map fun b => (b, s')

/-- A store of the byte `b` at `v`. -/
def PageState.storeByte (s : PageState) (kernelHeap v : BitVec 64) (b : BitVec 8) :
    Option PageState :=
  (s.touch kernelHeap 2#64 v).bind fun s' => (s'.frameAt v).map fun f => s'.storeAt f v b

variable {s : PageState} {kernelHeap v w : BitVec 64} {f : Frame} {b : BitVec 8}

theorem byteAt_of_frame (h : s.frameAt v = some f) :
    s.byteAt v = some (pageByte (s.mem f) (pageOffset v)) := by
  rw [PageState.byteAt, h]
  rfl

theorem touch_mapped {reg1 : BitVec 64} (h : (s.frameAt v).isSome) :
    s.touch kernelHeap reg1 v = some s :=
  if_pos h

/-- A load from a mapped address changes nothing. -/
theorem loadByte_mapped (h : s.byteAt v = some b) : s.loadByte kernelHeap v = some (b, s) := by
  have hmapped : (s.frameAt v).isSome := by
    rw [PageState.byteAt, Option.map_eq_some_iff] at h
    obtain ⟨f, hf, -⟩ := h
    rw [hf]
    rfl
  rw [PageState.loadByte, touch_mapped hmapped, Option.bind_some, h]
  rfl

theorem storeByte_mapped (h : s.frameAt v = some f) :
    s.storeByte kernelHeap v b = some (s.storeAt f v b) := by
  rw [PageState.storeByte, touch_mapped (by rw [h]; rfl), Option.bind_some, h]
  rfl

/-! ## What a store leaves alone -/

@[simp] theorem storeAt_mem_same (s : PageState) (f : Frame) (v : BitVec 64) (b : BitVec 8) :
    (s.storeAt f v b).mem f = setPageByte (s.mem f) (pageOffset v) b := setPage_same _ _ _

theorem storeAt_mem_other {g : Frame} (h : g ≠ f) : (s.storeAt f v b).mem g = s.mem g :=
  setPage_other h

@[simp] theorem storeAt_root (s : PageState) (f : Frame) (v : BitVec 64) (b : BitVec 8) :
    (s.storeAt f v b).root = s.root := rfl

@[simp] theorem storeAt_free (s : PageState) (f : Frame) (v : BitVec 64) (b : BitVec 8) (g : Frame) :
    (s.storeAt f v b).free g ↔ s.free g := Iff.rfl

/-- A frame that is no table under `r`. -/
def PageState.noTable (s : PageState) (r f : Frame) : Prop :=
  ∀ q : List (BitVec 9), q.length ≤ 3 → s.walk r q ≠ some f

/-- Ways to tables depend on the tables. -/
theorem follow_storeAt {next : Pte → Option Frame} {r : Frame}
    (h : ∀ q : List (BitVec 9), q.length ≤ 3 → follow next s.mem r q ≠ some f) {q : List (BitVec 9)}
    (hq : q.length ≤ 4) : follow next (s.storeAt f v b).mem r q = follow next s.mem r q := by
  apply follow_congr
  intro p i rest t hqeq ht
  have hlen : q.length = p.length + (rest.length + 1) := by simp [hqeq]
  rw [storeAt_mem_other]
  rintro rfl
  exact h p (by omega) ht

theorem walk_storeAt {r : Frame} (h : s.noTable r f) {q : List (BitVec 9)} (hq : q.length ≤ 4) :
    (s.storeAt f v b).walk r q = s.walk r q := follow_storeAt h hq

theorem look_storeAt {r : Frame} (h : s.noTable r f) {q : List (BitVec 9)} (hq : q.length ≤ 3)
    (i : BitVec 9) : (s.storeAt f v b).look r q i = s.look r q i := by
  unfold PageState.look lookup
  have hwalk : follow Pte.next (s.storeAt f v b).mem r q = follow Pte.next s.mem r q :=
    walk_storeAt h (by omega)
  rw [hwalk]
  cases ht : follow Pte.next s.mem r q with
  | none => rfl
  | some t =>
    have hne : t ≠ f := by
      rintro rfl
      exact h q hq ht
    simp only [Option.bind_some, storeAt_mem_other hne]

theorem translate_storeAt {r : Frame} (h : s.noTable r f) (w : BitVec 64) :
    (s.storeAt f v b).translate r w = s.translate r w :=
  look_storeAt h (by simp [tablePath]) _

theorem frameAt_storeAt (h : s.noTable (frameOf s.cr3) f) (w : BitVec 64) :
    (s.storeAt f v b).frameAt w = s.frameAt w := by
  unfold PageState.frameAt
  rw [show (s.storeAt f v b).translate (frameOf (s.storeAt f v b).cr3) w =
    s.translate (frameOf s.cr3) w from translate_storeAt h w]

/-- The tree under `PML4` stays as it is. -/
theorem pageTree_storeAt (htree : PageTree s) (h : s.noTable s.root f) :
    PageTree (s.storeAt f v b) where
  tree := by
    intro p q g hp hq hpg hqg
    exact htree.tree p q g hp hq ((walk_storeAt h (by omega)).symm.trans hpg)
      ((walk_storeAt h (by omega)).symm.trans hqg)
  taken p g hp hg := htree.taken p g hp ((walk_storeAt h (by omega)).symm.trans hg)
  kernel := (walk_storeAt h (by decide)).trans htree.kernel

end OS64.Mm
