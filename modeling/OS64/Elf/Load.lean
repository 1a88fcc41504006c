import OS64.Elf.Image
import OS64.Mm.PageUser

/-!
# Segments in memory

`elf64_load_stage3` maps the pages of a segment, clears its bytes and copies the file
over them, one segment after the other. Each segment gets its pages afresh: where its
first or last page already holds bytes of an earlier segment, that page is replaced and
the earlier bytes are gone with it. `LoadInv` keeps account of this: of every segment
loaded so far each byte is as the file describes it, or, where a later segment covers its
page, whatever the new frame was left with.
-/

namespace OS64.Elf

open OS64.Lib OS64.Mm

/-! ## Segments -/

namespace Elf64Phdr

variable (p : Elf64Phdr)

/-- Byte `k` of a segment, as the file describes it. -/
def byte (img : ByteMem) (k : Nat) : BitVec 8 :=
  if k < p.pFilesz.toNat then img (p.pOffset.toNat + k) else 0

/-- The address of byte `k`. -/
def addr (k : Nat) : BitVec 64 := p.pVaddr + BitVec.ofNat 64 k

/-- The address is in one of the pages that the bytes of the segment, or the tail of its
first page, reach into. -/
def covers (a : BitVec 64) : Prop :=
  p.pVaddr.toNat / 0x1000 ≤ a.toNat / 0x1000 ∧
    a.toNat / 0x1000 < (p.pVaddr.toNat + p.pMemsz.toNat + 0xFFF) / 0x1000

instance (a : BitVec 64) : Decidable (p.covers a) := inferInstanceAs (Decidable (_ ∧ _))

/-- The size `alloc_pages_user` is asked for. -/
def span : BitVec 64 := p.pMemsz + pageTail p.pVaddr

/-- The pages it maps for the segment. -/
def pages : List (BitVec 64) :=
  loopPages (pageBase p.pVaddr) ((p.span.toNat + 0xFFF) / 0x1000) 0

/-- A segment in the lower half, with its bytes in the file and no more of them than it has
in memory. -/
structure Fits (len : Nat) : Prop where
  data : p.pOffset.toNat + p.pFilesz.toNat ≤ len
  sizes : p.pFilesz.toNat ≤ p.pMemsz.toNat
  user : p.pVaddr.toNat + p.pMemsz.toNat ≤ 2 ^ 47

/-- Two segments have no byte of memory in common. -/
def Apart (p q : Elf64Phdr) : Prop :=
  ∀ j k, j < p.pMemsz.toNat → k < q.pMemsz.toNat → p.addr j ≠ q.addr k

end Elf64Phdr

theorem pageTail_toNat (v : BitVec 64) : (pageTail v).toNat = v.toNat % 0x1000 := by
  rw [pageTail, BitVec.toNat_and]
  exact Nat.and_two_pow_sub_one_eq_mod v.toNat 12

theorem pageBase_toNat (v : BitVec 64) : (pageBase v).toNat = v.toNat / 0x1000 * 0x1000 := by
  have hshift : pageBase v = (v >>> 12) <<< 12 := by
    apply BitVec.eq_of_getLsbD_eq
    intro i hi
    have hmask : (0xFFFFFFFFFFFFF000#64).getLsbD i = decide (12 ≤ i) := by
      revert i
      decide +kernel
    rw [pageBase, BitVec.getLsbD_and, hmask, BitVec.getLsbD_shiftLeft, BitVec.getLsbD_ushiftRight]
    by_cases h : i < 12
    · simp [h, show ¬ 12 ≤ i by omega]
    · simp [h, hi, show 12 ≤ i by omega, show 12 + (i - 12) = i by omega]
  have hlt := v.isLt
  rw [hshift, BitVec.toNat_shiftLeft, BitVec.toNat_ushiftRight, Nat.shiftRight_eq_div_pow,
    Nat.shiftLeft_eq]
  omega

namespace Elf64Phdr.Fits

variable {p : Elf64Phdr} {len : Nat}

theorem addr_toNat (h : p.Fits len) {k : Nat} (hk : k < p.pMemsz.toNat) :
    (p.addr k).toNat = p.pVaddr.toNat + k := by
  have huser := h.user
  rw [addr, BitVec.toNat_add, BitVec.toNat_ofNat]
  omega

theorem addr_low (h : p.Fits len) {k : Nat} (hk : k < p.pMemsz.toNat) : (p.addr k).toNat < 2 ^ 47 := by
  have huser := h.user
  rw [h.addr_toNat hk]
  omega

/-- The bytes of a segment are in its pages. -/
theorem covers_addr (h : p.Fits len) {k : Nat} (hk : k < p.pMemsz.toNat) : p.covers (p.addr k) := by
  rw [covers, h.addr_toNat hk]
  omega

/-- The page `j` of the segment. -/
theorem page_toNat (h : p.Fits len) {j : Nat} (hj : j < (p.span.toNat + 0xFFF) / 0x1000) :
    (pageBase p.pVaddr + 0 + BitVec.ofNat 64 (0x1000 * j)).toNat =
      p.pVaddr.toNat / 0x1000 * 0x1000 + 0x1000 * j ∧
    p.pVaddr.toNat / 0x1000 + j < (p.pVaddr.toNat + p.pMemsz.toNat + 0xFFF) / 0x1000 := by
  have huser := h.user
  have hspan : p.span.toNat = p.pMemsz.toNat + p.pVaddr.toNat % 0x1000 := by
    rw [span, BitVec.toNat_add, pageTail_toNat]
    omega
  rw [hspan] at hj
  have hzero : pageBase p.pVaddr + 0 = pageBase p.pVaddr := BitVec.add_zero _
  rw [hzero, BitVec.toNat_add, pageBase_toNat, BitVec.toNat_ofNat]
  constructor
  · omega
  · omega

theorem pages_low (h : p.Fits len) : ∀ v ∈ p.pages, v.toNat < 2 ^ 47 := by
  intro v hv
  obtain ⟨j, hj, rfl⟩ := (mem_loopPages _ _).mp hv
  obtain ⟨hval, hlt⟩ := h.page_toNat hj
  have huser := h.user
  rw [hval]
  omega

theorem pages_off (h : p.Fits len) : ∀ v ∈ p.pages, offKernel v :=
  fun v hv hk => absurd hk (low_not_kernel (h.pages_low v hv))

/-- The pages that are mapped are those the segment covers. -/
theorem inPages_iff (h : p.Fits len) {a : BitVec 64} (ha : a.toNat < 2 ^ 47) :
    InPages p.pages a ↔ p.covers a := by
  have huser := h.user
  constructor
  · rintro ⟨v, hv, hpath⟩
    obtain ⟨j, hj, rfl⟩ := (mem_loopPages _ _).mp hv
    obtain ⟨hval, hlt⟩ := h.page_toNat hj
    have hpage := pagePath_eq_iff.mp hpath
    rw [hval] at hpage
    unfold covers
    omega
  · rintro ⟨hge, hlt⟩
    have hspan : p.span.toNat = p.pMemsz.toNat + p.pVaddr.toNat % 0x1000 := by
      rw [span, BitVec.toNat_add, pageTail_toNat]
      omega
    have hj : a.toNat / 0x1000 - p.pVaddr.toNat / 0x1000 < (p.span.toNat + 0xFFF) / 0x1000 := by
      rw [hspan]
      omega
    refine ⟨_, (mem_loopPages _ _).mpr ⟨_, hj, rfl⟩, ?_⟩
    rw [pagePath_eq_iff, (h.page_toNat hj).1]
    omega

end Elf64Phdr.Fits

/-! ## Stores one after the other -/

/-- From `s` to `s'` the bytes from `addr` on became those of `f`, and nothing else changed. -/
structure Wrote (s s' : PageState) (us : List (BitVec 64)) (addr : BitVec 64) (n : Nat)
    (f : Nat → BitVec 8) : Prop where
  frame : ∀ w, s'.frameAt w = s.frameAt w
  stored : ∀ k, k < n → s'.byteAt (addr + BitVec.ofNat 64 k) = some (f k)
  off : ∀ w, w.toNat < 2 ^ 47 → InPages us w → (∀ k, k < n → w ≠ addr + BitVec.ofNat 64 k) →
    s'.byteAt w = s.byteAt w

theorem wrote_none (s : PageState) (us : List (BitVec 64)) (addr : BitVec 64) (f : Nat → BitVec 8) :
    Wrote s s us addr 0 f := ⟨fun _ => rfl, fun _ hk => absurd hk (by omega), fun _ _ _ _ => rfl⟩

variable {s₀ s : PageState} {K : BitVec 64 → Prop} {us : List (BitVec 64)} {env : ElfEnv}

/-- A byte stored and the rest after it. -/
theorem store_then (h : UserPages s₀ s K us) {addr : BitVec 64} {n : Nat}
    (hlow : addr.toNat + (n + 1) ≤ 2 ^ 47)
    (hin : ∀ k, k < n + 1 → InPages us (addr + BitVec.ofNat 64 k)) (f : Nat → BitVec 8)
    {rest : ElfProg Unit}
    (hrest : ∀ s₁, UserPages s₀ s₁ K us → ∃ s', rest.exec (elfExec env) s₁ = some ((), s') ∧
      UserPages s₀ s' K us ∧ Wrote s₁ s' us (addr + 1) n fun k => f (k + 1)) :
    ∃ s', ((do perform (.store addr (f 0)); rest) : ElfProg Unit).exec (elfExec env) s =
        some ((), s') ∧
      UserPages s₀ s' K us ∧ Wrote s s' us addr (n + 1) f := by
  have hzero : addr + BitVec.ofNat 64 0 = addr := BitVec.add_zero _
  have hin0 : InPages us addr := by
    have h0 := hin 0 (by omega)
    rwa [hzero] at h0
  have hlow0 : addr.toNat < 2 ^ 47 := by omega
  obtain ⟨g, hg, htable, hs₁, hat, hoff⟩ :=
    h.store (canonical_low hlow0) (low_not_window hlow0) hin0 (f 0)
  rw [← h.space] at htable
  obtain ⟨s', hrun, hs', hwrote⟩ := hrest _ hs₁
  have hstore : (perform (.store addr (f 0))).exec (elfExec env) s =
      some ((), s.storeAt g addr (f 0)) := by
    refine (Prog.exec_perform _ _).trans ?_
    show (s.storeByte env.kernelHeap addr (f 0)).map _ = _
    rw [storeByte_mapped hg]
    rfl
  have hval : ∀ k, k < n + 1 → (addr + BitVec.ofNat 64 k).toNat = addr.toNat + k := by
    intro k hk
    rw [BitVec.toNat_add, BitVec.toNat_ofNat]
    omega
  refine ⟨s', (Prog.exec_bind_some hstore _).trans hrun, hs', ?_, ?_, ?_⟩
  · intro w
    rw [hwrote.frame, frameAt_storeAt htable]
  · intro k hk
    cases k with
    | zero =>
      -- The first byte is not among those stored after it.
      rw [hzero, hwrote.off addr (by omega) hin0, hat]
      intro j hj heq
      rw [ofNat_succ] at heq
      have hj' := congrArg BitVec.toNat heq
      rw [hval (j + 1) (by omega)] at hj'
      omega
    | succ k =>
      rw [← ofNat_succ, hwrote.stored k (by omega)]
  · intro w hw hwin hne
    rw [hwrote.off w hw hwin fun k hk => ?_, hoff w (canonical_low hw) (low_not_window hw) hwin ?_]
    · have h0 := hne 0 (by omega)
      rwa [hzero] at h0
    · rw [ofNat_succ]
      exact hne (k + 1) (by omega)

theorem memset_spec : ∀ (n : Nat) {s : PageState} {addr : BitVec 64}, UserPages s₀ s K us →
    addr.toNat + n ≤ 2 ^ 47 → (∀ k, k < n → InPages us (addr + BitVec.ofNat 64 k)) →
    ∃ s', (memset n addr).exec (elfExec env) s = some ((), s') ∧ UserPages s₀ s' K us ∧
      Wrote s s' us addr n fun _ => 0
  | 0, s, addr, h, _, _ => ⟨s, rfl, h, wrote_none _ _ _ _⟩
  | n + 1, s, addr, h, hlow, hin => by
    refine store_then h hlow hin (fun _ => 0) fun s₁ hs₁ => ?_
    by_cases hn : n = 0
    · subst hn
      exact ⟨s₁, rfl, hs₁, wrote_none _ _ _ _⟩
    · have hnext : (addr + 1).toNat = addr.toNat + 1 := by
        rw [BitVec.toNat_add, show (1 : BitVec 64).toNat = 1 from rfl]
        omega
      refine memset_spec n hs₁ (by omega) fun k hk => ?_
      rw [ofNat_succ]
      exact hin (k + 1) (by omega)

theorem memcpy_spec {f : Nat → BitVec 8} : ∀ (n : Nat) {s : PageState} {dst src : BitVec 64} {o : Nat},
    UserPages s₀ s K us → dst.toNat + n ≤ 2 ^ 47 →
    (∀ k, k < n → InPages us (dst + BitVec.ofNat 64 k)) →
    (∀ k, k < n → K (src + BitVec.ofNat 64 k) ∧
      s₀.byteAt (src + BitVec.ofNat 64 k) = some (f (o + k))) →
    ∃ s', (memcpy n dst src).exec (elfExec env) s = some ((), s') ∧ UserPages s₀ s' K us ∧
      Wrote s s' us dst n fun k => f (o + k)
  | 0, s, dst, src, o, h, _, _, _ => ⟨s, rfl, h, wrote_none _ _ _ _⟩
  | n + 1, s, dst, src, o, h, hlow, hin, hsrc => by
    have hload : (perform (.load src)).exec (elfExec env) s = some (f o, s) := by
      obtain ⟨hK, hbyte⟩ := hsrc 0 (by omega)
      have hzero : src + BitVec.ofNat 64 0 = src := BitVec.add_zero _
      rw [hzero] at hK hbyte
      refine (Prog.exec_perform _ _).trans (loadByte_mapped ?_)
      rw [h.kept_byte hK, hbyte]
      rfl
    rw [memcpy, Prog.exec_bind_some hload]
    refine store_then h hlow hin (fun k => f (o + k)) fun s₁ hs₁ => ?_
    by_cases hn : n = 0
    · subst hn
      exact ⟨s₁, rfl, hs₁, wrote_none _ _ _ _⟩
    · have hnext : (dst + 1).toNat = dst.toNat + 1 := by
        rw [BitVec.toNat_add, show (1 : BitVec 64).toNat = 1 from rfl]
        omega
      have hrest : ∃ s', (memcpy n (dst + 1) (src + 1)).exec (elfExec env) s₁ = some ((), s') ∧
          UserPages s₀ s' K us ∧ Wrote s₁ s' us (dst + 1) n fun k => f (o + 1 + k) := by
        refine memcpy_spec n hs₁ (by omega) (fun k hk => ?_) fun k hk => ?_
        · rw [ofNat_succ]
          exact hin (k + 1) (by omega)
        · rw [ofNat_succ, Nat.add_assoc, Nat.add_comm 1 k]
          exact hsrc (k + 1) (by omega)
      obtain ⟨s', hrun, hs', hwrote⟩ := hrest
      refine ⟨s', hrun, hs', hwrote.frame, fun k hk => ?_, hwrote.off⟩
      rw [hwrote.stored k hk, Nat.add_assoc, Nat.add_comm 1 k]

end OS64.Elf
