import OS64.Mm.PageBytes

/-!
# The boot mapping

`page_init` works with one pointer to `uint64_t`, which it moves from table to table;
the bound of its last loop is that pointer, and so is what it stores in
`*last_phys_page` in the end. `pageInitRun` has the pointer and the stores as they
are, `pageInit` the four tables; they agree where the pointer is aligned and low
(`pageInitRun_eq`). The walk through the tables then maps the screen and everything
up to the end of the tables to the top gigabyte, and nothing else
(`page_init_boot_mapping`).
-/

namespace OS64.Mm

open OS64.Lib

/-! ## The pointer -/

/-- `*p = e`, with `p` a pointer to an aligned word and identical addresses. -/
def storeWord (m : Frame → Page) (p : BitVec 64) (e : Pte) : Frame → Page :=
  setEntry m (frameOf p) (p.extractLsb' 3 9) e

/-- `zeromem(last, 4096)`, `last[i] = calc_page(last + 0x200)`, `last += 0x200`. -/
def placeTable (i : BitVec 64) (x : (Frame → Page) × BitVec 64) : (Frame → Page) × BitVec 64 :=
  (storeWord (setPage x.1 (frameOf x.2) fun _ => 0) (x.2 + 8#64 * i) (calcPage (x.2 + 8#64 * 0x200#64)),
    x.2 + 8#64 * 0x200#64)

/-- The loop of `page_init` from `i` on: `last[i>>12] = calc_page(i)` while `i <= last`. -/
def placePages (last : BitVec 64) : Nat → BitVec 64 → (Frame → Page) → Frame → Page
  | 0, _, m => m
  | n + 1, i, m =>
    if i ≤ last then
      placePages last n (i + 0x1000#64) (storeWord m (last + 8#64 * (i >>> 12)) (calcPage i))
    else m

/-- `page_init`, with `*last_phys_page` before and after it. The loop ends before the
address of its table comes round. -/
def pageInitRun (lastPhysPage : BitVec 64) (s : PageState) : PageState × BitVec 64 :=
  let x := placeTable 0 (placeTable 511 (placeTable 511 (s.mem, lastPhysPage)))
  let m := setPage x.1 (frameOf x.2) fun _ => 0
  let m := placePages x.2 (x.2.toNat / 0x1000 + 1) 0xB8000 m
  let kernelPt := x.2 ||| 0xFFFFFFFFC0000000#64
  let last := x.2 + 8#64 * 0x200#64
  ({ s with mem := m, pml4 := lastPhysPage, kernelPt := kernelPt,
            cr3 := lastPhysPage &&& 0x000FFFFFFFFFF000#64, intf := decide (s.sema = 0) }, last)

/-- A table of one entry is one store in a cleared page. -/
theorem placeTable_eq {i : BitVec 64} {m : Frame → Page} {p : BitVec 64}
    (hp : p.toNat % 0x1000 = 0) (hi : i.toNat < 512) :
    placeTable i (m, p) =
      (setPage m (frameOf p) (tableOf (i.setWidth 9) (calcPage (p + 0x1000#64))), p + 0x1000#64) := by
  have hlt := p.isLt
  have hadd : (p + 8#64 * i).toNat = p.toNat + 8 * i.toNat := by
    rw [BitVec.toNat_add, BitVec.toNat_mul]
    show (p.toNat + 8 * i.toNat % 2 ^ 64) % 2 ^ 64 = _
    omega
  have hframe : frameOf (p + 8#64 * i) = frameOf p := by
    apply BitVec.eq_of_toNat_eq
    rw [frameOf_toNat, frameOf_toNat, hadd]
    omega
  have hidx : (p + 8#64 * i).extractLsb' 3 9 = i.setWidth 9 := by
    apply BitVec.eq_of_toNat_eq
    rw [BitVec.extractLsb'_toNat, Nat.shiftRight_eq_div_pow, hadd, BitVec.toNat_setWidth]
    omega
  refine Prod.ext ?_ rfl
  show setEntry (setPage m (frameOf p) fun _ => 0) (frameOf (p + 8#64 * i)) _ _ =
    setPage m (frameOf p) (tableOf (i.setWidth 9) (calcPage (p + 0x1000#64)))
  rw [hframe, hidx]
  funext g j
  unfold setEntry setPage tableOf
  by_cases hg : g = frameOf p
  · by_cases hj : j = i.setWidth 9
    · rw [if_pos ⟨hg, hj⟩, if_pos hg, if_pos hj]
      rfl
    · rw [if_neg fun h => hj h.2, if_pos hg, if_pos hg, if_neg hj]
  · rw [if_neg fun h => hg h.1, if_neg hg, if_neg hg]

/-- The loop stores the entries of the pages up to `last`, one after the other. -/
theorem placePages_eq {last : BitVec 64} (hal : last.toNat % 0x1000 = 0)
    (hlow : last.toNat < 2 ^ 50) {n : Nat} {k : Nat} (hk : k < 2 ^ 40)
    (hn : last.toNat / 0x1000 + 1 ≤ k + n) (m : Frame → Page) :
    placePages last n (BitVec.ofNat 64 (k * 0x1000)) m =
      identityLoop (frameOf last) (last.toNat / 0x1000 + 1 - k) k m := by
  induction n generalizing k m with
  | zero =>
    rw [show last.toNat / 0x1000 + 1 - k = 0 by omega]
    rfl
  | succ n ih =>
    have hi : (BitVec.ofNat 64 (k * 0x1000)).toNat = k * 0x1000 := by
      rw [BitVec.toNat_ofNat]
      omega
    rw [placePages]
    by_cases hle : BitVec.ofNat 64 (k * 0x1000) ≤ last
    · rw [if_pos hle]
      rw [BitVec.le_def, hi] at hle
      have hnext : BitVec.ofNat 64 (k * 0x1000) + 0x1000#64 = BitVec.ofNat 64 ((k + 1) * 0x1000) := by
        apply BitVec.eq_of_toNat_eq
        rw [BitVec.toNat_add, hi, BitVec.toNat_ofNat, BitVec.toNat_ofNat]
        omega
      have haddr : (last + 8#64 * (BitVec.ofNat 64 (k * 0x1000) >>> 12)).toNat = last.toNat + 8 * k := by
        rw [BitVec.toNat_add, BitVec.toNat_mul, BitVec.toNat_ushiftRight, hi,
          Nat.shiftRight_eq_div_pow]
        show (last.toNat + 8 * (k * 0x1000 / 2 ^ 12) % 2 ^ 64) % 2 ^ 64 = _
        omega
      have hstore : storeWord m (last + 8#64 * (BitVec.ofNat 64 (k * 0x1000) >>> 12))
          (calcPage (BitVec.ofNat 64 (k * 0x1000))) =
          setEntry m (frameOf last + BitVec.ofNat 40 (k / 512)) (BitVec.ofNat 9 k)
            (calcPage (BitVec.ofNat 64 (k * 0x1000))) := by
        have hframe : frameOf (last + 8#64 * (BitVec.ofNat 64 (k * 0x1000) >>> 12)) =
            frameOf last + BitVec.ofNat 40 (k / 512) := by
          apply BitVec.eq_of_toNat_eq
          rw [frameOf_toNat, haddr, BitVec.toNat_add, frameOf_toNat, BitVec.toNat_ofNat]
          omega
        have hidx : (last + 8#64 * (BitVec.ofNat 64 (k * 0x1000) >>> 12)).extractLsb' 3 9 =
            BitVec.ofNat 9 k := by
          apply BitVec.eq_of_toNat_eq
          rw [BitVec.extractLsb'_toNat, Nat.shiftRight_eq_div_pow, haddr, BitVec.toNat_ofNat]
          omega
        rw [storeWord, hframe, hidx]
      rw [hnext, hstore, ih (by omega) (by omega),
        show last.toNat / 0x1000 + 1 - k = last.toNat / 0x1000 + 1 - (k + 1) + 1 by omega]
      rfl
    · rw [if_neg hle]
      rw [BitVec.le_def, hi] at hle
      rw [show last.toNat / 0x1000 + 1 - k = 0 by omega]
      rfl

/-- The tables of the moving pointer are the four of `pageInit`, and it ends behind them. -/
theorem pageInitRun_eq {last : BitVec 64} (h : LastPage last) (s : PageState) :
    pageInitRun last s = (pageInit last s, last + 0x4000#64) := by
  have hal := h.aligned
  have hlow := h.low
  have hnat : ∀ a : Nat, a ≤ 0x4000 → (last + BitVec.ofNat 64 a).toNat = last.toNat + a := by
    intro a ha
    rw [BitVec.toNat_add, BitVec.toNat_ofNat]
    omega
  have h1 := hnat 0x1000 (by omega)
  have h2 := hnat 0x2000 (by omega)
  have h3 := hnat 0x3000 (by omega)
  have hplus2 : last + 0x1000#64 + 0x1000#64 = last + 0x2000#64 := by bv_omega
  have hplus3 : last + 0x2000#64 + 0x1000#64 = last + 0x3000#64 := by bv_omega
  have hplus4 : last + 0x3000#64 + 8#64 * 0x200#64 = last + 0x4000#64 := by bv_omega
  have htables : placeTable 0 (placeTable 511 (placeTable 511 (s.mem, last))) =
      (setPage (setPage (setPage s.mem
        (frameOf last) (tableOf 511 (calcPage (last + 0x1000#64))))
        (frameOf (last + 0x1000#64)) (tableOf 511 (calcPage (last + 0x2000#64))))
        (frameOf (last + 0x2000#64)) (tableOf 0 (calcPage (last + 0x3000#64))), last + 0x3000#64) := by
    have ht1 := @placeTable_eq 511 s.mem last hal (by decide)
    have ht2 := fun m => @placeTable_eq 511 m (last + 0x1000#64) (by rw [h1]; omega) (by decide)
    have ht3 := fun m => @placeTable_eq 0 m (last + 0x2000#64) (by rw [h2]; omega) (by decide)
    rw [ht1, ht2, hplus2, ht3, hplus3]
    rfl
  have hpages := fun m => @placePages_eq (last + 0x3000#64) (by rw [h3]; omega) (by rw [h3]; omega)
    ((last + 0x3000#64).toNat / 0x1000 + 1) 0xB8 (by omega) (by omega) m
  rw [h3] at hpages
  unfold pageInitRun
  simp only [htables, hplus4, h3]
  rw [show (0xB8000 : BitVec 64) = BitVec.ofNat 64 (0xB8 * 0x1000) from rfl, hpages]
  rfl

/-! ## The walk -/

/-- Entries that stay in the table, one for each index the loop comes to. -/
theorem identityLoop_at (last : Frame) {n i : Nat} (hn : i + n ≤ 512) (m : Frame → Page)
    (j : BitVec 9) :
    identityLoop last n i m last j =
      if i ≤ j.toNat ∧ j.toNat < i + n then calcPage (BitVec.ofNat 64 (j.toNat * 0x1000))
      else m last j := by
  induction n generalizing i m with
  | zero => rw [if_neg (by omega)]; rfl
  | succ n ih =>
    have hsame : last + BitVec.ofNat 40 (i / 512) = last := by
      rw [show i / 512 = 0 by omega]
      exact BitVec.add_zero last
    rw [identityLoop, ih (by omega), hsame]
    by_cases hj : j.toNat = i
    · have hidx : BitVec.ofNat 9 i = j := by
        rw [← hj, BitVec.ofNat_toNat]
        exact BitVec.setWidth_eq j
      rw [if_neg (by omega), if_pos (by omega), hidx, setEntry_same, hj]
    · have hidx : ¬ (last = last ∧ j = BitVec.ofNat 9 i) := by
        rintro ⟨-, rfl⟩
        rw [BitVec.toNat_ofNat] at hj
        omega
      rw [setEntry_other hidx]
      by_cases hin : i + 1 ≤ j.toNat ∧ j.toNat < i + 1 + n
      · rw [if_pos hin, if_pos (by omega)]
      · rw [if_neg hin, if_neg (by omega)]

/-- The entries of the lowest table. -/
theorem pageInit_entry {last : BitVec 64} (h : LastPage last) (hhi : last.toNat + 0x4000 ≤ 0x200000)
    (hlo : 0xB8000 ≤ last.toNat) (s : PageState) (j : BitVec 9) :
    (pageInit last s).mem (pageInit last s).kptFrame j =
      if 0xB8 ≤ j.toNat ∧ j.toNat * 0x1000 < last.toNat + 0x4000
      then calcPage (BitVec.ofNat 64 (j.toNat * 0x1000)) else 0 := by
  have hal := h.aligned
  rw [pageInit_kptFrame h, pageInit_mem, identityLoop_at _ (by omega), setPage_same]
  by_cases hj : 0xB8 ≤ j.toNat ∧ j.toNat * 0x1000 < last.toNat + 0x4000
  · rw [if_pos hj, if_pos (by omega)]
  · rw [if_neg hj, if_neg (by omega)]

/-- The addresses of the kernel's page table. -/
theorem tablePath_kernel {v : BitVec 64} (hcan : canonical v = true) :
    tablePath v = kernelPath ↔
      0xFFFFFFFFC0000000 ≤ v.toNat ∧ v.toNat < 0xFFFFFFFFC0000000 + 0x200000 := by
  have hv := v.isLt
  have h3 := linearIndex_toNat 3 v
  have h2 := linearIndex_toNat 2 v
  have h1 := linearIndex_toNat 1 v
  unfold canonical at hcan
  rw [Bool.or_eq_true, decide_eq_true_eq, decide_eq_true_eq] at hcan
  simp only [tablePath, kernelPath, List.cons.injEq, and_true, ← BitVec.toNat_inj]
  show _ = 511 ∧ _ = 511 ∧ _ = 0 ↔ _
  omega

/-- What `page_init` is to set up, for the end `last` of the kernel: the pages from the screen
to the end of the tables, at the top gigabyte, for the kernel alone and to be written, which
takes every entry of the walk. -/
structure BootMapping (last : BitVec 64) (s : PageState) : Prop where
  mapped : ∀ v, canonical v = true → ((s.translate s.root v).isSome ↔
    0xFFFFFFFFC00B8000 ≤ v.toNat ∧ v.toNat < 0xFFFFFFFFC0000000 + last.toNat + 0x4000)
  entry : ∀ v e, canonical v = true → s.translate s.root v = some e →
    frameAddr e.address + (pageOffset v).setWidth 64 = v - 0xFFFFFFFFC0000000#64 ∧
    e.present = true ∧ e.writable = true ∧ e.r3Access = false
  way : ∀ v p i f, canonical v = true → (s.translate s.root v).isSome →
    (p ++ [i]) <+: pagePath v → s.walk s.root p = some f →
    (s.mem f i).present = true ∧ (s.mem f i).writable = true
  kernelPt : ∃ t, s.walk s.root kernelPath = some t ∧
    s.kernelPt = 0xFFFFFFFFC0000000#64 + frameAddr t

/-- The entries that `page_init` makes on the way to a page are present and writable. -/
theorem pageInit_way {last : BitVec 64} (h : LastPage last) (s : PageState) {v : BitVec 64}
    {p : List (BitVec 9)} {i : BitVec 9} {f : Frame} (hpath : tablePath v = kernelPath)
    (hpre : (p ++ [i]) <+: pagePath v)
    (hf : (pageInit last s).walk (pageInit last s).root p = some f) :
    (∃ phys, (pageInit last s).mem f i = calcPage phys) ∨
      f = (pageInit last s).kptFrame ∧ i = linearIndex 0 v := by
  obtain ⟨hpml4, hpdp, hpd⟩ := pageInit_tables h s
  have hentry (k : BitVec 9) (phys : BitVec 64) : tableOf k (calcPage phys) k = calcPage phys :=
    if_pos rfl
  rw [pagePath_eq, hpath] at hpre
  have hlen : p.length ≤ 3 := by
    have hle := hpre.length_le
    rw [List.length_append] at hle
    exact Nat.le_of_succ_le_succ hle
  rcases tableChain_walk (pageInit_chain h s) hlen hf with ⟨rfl, rfl⟩ | ⟨rfl, rfl⟩ | ⟨rfl, rfl⟩ |
    ⟨rfl, rfl⟩
  · have hi : i = 511 := (List.cons_prefix_cons.mp hpre).1
    exact Or.inl ⟨_, by rw [hi, pageInit_root, hpml4, hentry]⟩
  · have hi : i = 511 := (List.cons_prefix_cons.mp (List.cons_prefix_cons.mp hpre).2).1
    exact Or.inl ⟨_, by rw [hi, hpdp, hentry]⟩
  · have hi : i = 0 := (List.cons_prefix_cons.mp
      (List.cons_prefix_cons.mp (List.cons_prefix_cons.mp hpre).2).2).1
    exact Or.inl ⟨_, by rw [hi, hpd, hentry]⟩
  · have hi : [i] <+: [linearIndex 0 v] := (List.prefix_append_right_inj kernelPath).mp hpre
    exact Or.inr ⟨rfl, (List.cons_prefix_cons.mp hi).1⟩

/-- A frame number shifted back is the address. -/
theorem frameAddr_frameOf {a : BitVec 64} (hal : a.toNat % 0x1000 = 0) (hlt : a.toNat < 2 ^ 52) :
    frameAddr (frameOf a) = a := by
  apply BitVec.eq_of_toNat_eq
  rw [frameAddr, BitVec.toNat_shiftLeft, BitVec.toNat_setWidth, frameOf_toNat, Nat.shiftLeft_eq]
  omega

/-- `page_init` builds the boot mapping, and moves `*last_phys_page` behind its tables. -/
theorem page_init_boot_mapping {last : BitVec 64} (hal : last.toNat % 0x1000 = 0)
    (hlo : 0xB8000 ≤ last.toNat) (hhi : last.toNat + 0x4000 ≤ 0x200000) (s : PageState) :
    BootMapping last (pageInitRun last s).1 ∧ (pageInitRun last s).2.toNat = last.toNat + 0x4000 := by
  have h : LastPage last := ⟨hal, by omega, by omega⟩
  have hentry := pageInit_entry h hhi hlo s
  have hchain := pageInit_chain h s
  have h3 : (last + 0x3000#64).toNat = last.toNat + 0x3000 := by
    rw [BitVec.toNat_add]
    show (last.toNat + 0x3000) % 2 ^ 64 = _
    omega
  rw [pageInitRun_eq h]
  refine ⟨⟨?_, ?_, ?_, ?_⟩, ?_⟩
  · intro v hcan
    have hv := v.isLt
    have hidx := linearIndex_toNat 0 v
    have hkernel := tablePath_kernel hcan
    rw [tableChain_translate hchain]
    by_cases hpath : tablePath v = kernelPath
    · rw [if_pos hpath, Option.isSome_map, hentry]
      have hrange := hkernel.mp hpath
      by_cases hj : 0xB8 ≤ (linearIndex 0 v).toNat ∧
          (linearIndex 0 v).toNat * 0x1000 < last.toNat + 0x4000
      · rw [if_pos hj, Pte.next_eq_some.mpr ⟨(calcPage_spec _).2.1, rfl⟩]
        refine iff_of_true rfl ?_
        omega
      · rw [if_neg hj]
        refine iff_of_false (by decide) ?_
        omega
    · rw [if_neg hpath]
      rw [hkernel] at hpath
      refine iff_of_false (by decide) ?_
      omega
  · intro v e hcan he
    have hv := v.isLt
    have hidx := linearIndex_toNat 0 v
    rw [tableChain_translate hchain] at he
    by_cases hpath : tablePath v = kernelPath
    · rw [if_pos hpath, Option.map_eq_some_iff] at he
      obtain ⟨g, hg, rfl⟩ := he
      rw [hentry] at hg ⊢
      have hrange := (tablePath_kernel hcan).mp hpath
      by_cases hj : 0xB8 ≤ (linearIndex 0 v).toNat ∧
          (linearIndex 0 v).toNat * 0x1000 < last.toNat + 0x4000
      · obtain ⟨haddr, hpresent, hwritable⟩ :=
          calcPage_spec (BitVec.ofNat 64 ((linearIndex 0 v).toNat * 0x1000))
        have hphys : (BitVec.ofNat 64 ((linearIndex 0 v).toNat * 0x1000)).toNat =
            (linearIndex 0 v).toNat * 0x1000 := by
          rw [BitVec.toNat_ofNat]
          omega
        rw [if_pos hj]
        refine ⟨?_, hpresent, hwritable, calcPage_r3Access _⟩
        have hoff := pageOffset_toNat v
        rw [haddr, frameAddr_frameOf (by rw [hphys]; omega) (by rw [hphys]; omega)]
        apply BitVec.eq_of_toNat_eq
        rw [BitVec.toNat_add, hphys, BitVec.toNat_setWidth, BitVec.toNat_sub]
        show _ = (2 ^ 64 - 0xFFFFFFFFC0000000 + v.toNat) % 2 ^ 64
        omega
      · rw [if_neg hj] at hg
        cases hg
    · rw [if_neg hpath] at he
      cases he
  · intro v p i f _ hmapped hpre hf
    rw [tableChain_translate hchain] at hmapped
    by_cases hpath : tablePath v = kernelPath
    · rcases pageInit_way h s hpath hpre hf with ⟨phys, he⟩ | ⟨hkpt, hi⟩
      · rw [he]
        exact (calcPage_spec phys).2
      · -- the entry of the page
        rw [if_pos hpath, Option.isSome_map, hentry] at hmapped
        rw [hkpt, hi, hentry]
        split at hmapped
        · rw [if_pos (by assumption)]
          exact (calcPage_spec _).2
        · cases hmapped
    · rw [if_neg hpath] at hmapped
      cases hmapped
  · refine ⟨_, tableChain_kernel hchain, ?_⟩
    show (last + 0x3000#64) ||| 0xFFFFFFFFC0000000#64 = _
    rw [pageInit_kptFrame h, frameAddr_frameOf (by rw [h3]; omega) (by rw [h3]; omega)]
    rw [BitVec.or_comm]
    refine (BitVec.add_eq_or_of_and_eq_zero _ _ ?_).symm
    -- the kernel lies below bit 30, and the window's base has only bits from there on
    apply BitVec.eq_of_getLsbD_eq
    intro i hi
    rw [BitVec.getLsbD_and, BitVec.getLsbD_zero]
    by_cases h30 : i < 30
    · have hbase : (0xFFFFFFFFC0000000#64).getLsbD i = false := by
        clear hi
        revert i
        decide +kernel
      rw [hbase, Bool.false_and]
    · have hlow : (last + 0x3000#64).getLsbD i = false := by
        rw [BitVec.getLsbD, Nat.testBit_lt_two_pow]
        rw [h3]
        exact Nat.lt_of_lt_of_le (by omega : last.toNat + 0x3000 < 2 ^ 30)
          (Nat.pow_le_pow_right (by omega) (by omega))
      rw [hlow, Bool.and_false]
  · rw [BitVec.toNat_add]
    show (last.toNat + 0x4000) % 2 ^ 64 = _
    omega

/-- A kernel that ends at 0x150000. -/
theorem page_init_boot_mapping_small :
    BootMapping 0x150000#64 (pageInitRun 0x150000#64 ⟨fun _ _ => 0, bootPhys, 0, 0, 0, 0, true⟩).1 ∧
      (pageInitRun 0x150000#64 ⟨fun _ _ => 0, bootPhys, 0, 0, 0, 0, true⟩).2.toNat =
        (0x150000#64).toNat + 0x4000 :=
  page_init_boot_mapping (by decide) (by decide) (by decide) _

end OS64.Mm
