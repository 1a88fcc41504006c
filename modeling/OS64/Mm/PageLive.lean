import OS64.Mm.HeapLive
import OS64.Mm.PageFork

/-!
# The buffers of `copy_page`

`copy_page` holds one block from `kmalloc` at each depth and gives it back at its end. Where
it finds the kernel's page table it returns from the middle of its loop and keeps the block.
`copyPageHeap` is `copy_page` with these calls in it; without them it is `copyPage`
(`copyPageHeap_run`). What it leaves of the heap is told from the tree in front of the call:
`copy_page_balanced_iff`.

Mirroring notes:
- The tree is read as `copy_page` reads it: `kernel_pt` has its own address in entry 0 while
  it is in the window, and of the frame number of an entry the lower 28 bits count.
- What the buffers hold is a local value, as in `copyPage`.
- A `kmalloc` that does not succeed is not followed.
-/

namespace OS64.Mm

open OS64.Lib

/-- The loop of `copy_page`, `copyLoop`, with the heap. -/
def copyLoopHeap
    (copy : BitVec 64 → PageState → HeapState → Option (BitVec 64 × PageState × HeapState))
    (k : Nat) : Nat → Nat → Page → PageState → HeapState →
      Option (Option Page × PageState × HeapState)
  | 0, _, buf, s, h => some (some buf, s, h)
  | n + 1, i, buf, s, h =>
    let e := buf (BitVec.ofNat 9 i)
    if e.addr ≠ 0 then
      -- the early `return`, past the `kfree`
      if k = 1 ∧ i = 0 ∧ e.addr = s.kernelPt &&& 0x0FFFFFFF#64 then some (none, s, h)
      else do
        let (p, s, h) ← copy e.addr s h
        copyLoopHeap copy k n (i + 1) (redirect buf i p) s h
    else copyLoopHeap copy k n (i + 1) buf s h

/-- The end of `copy_page`, with the buffer at `b`. -/
def copyOutHeap (b : Nat) (buf : Page) (s : PageState) (h : HeapState) :
    BitVec 64 × PageState × HeapState :=
  let (p, s) := (copyOut buf).run pageExec s
  (p, s, h.kfree b)

/-- `copy_page`. -/
def copyPageHeap : Nat → BitVec 64 → PageState → HeapState →
    Option (BitVec 64 × PageState × HeapState)
  | 0, phys, s, h => do
    let (b, h) ← h.kmalloc 4096
    let (buf, s) := (readPage phys).run pageExec s
    some (copyOutHeap b buf s h)
  | k + 1, phys, s, h => do
    let (b, h) ← h.kmalloc 4096
    let (buf, s) := (readPage phys).run pageExec s
    let (res, s, h) ← copyLoopHeap (copyPageHeap k) (k + 1) 512 0 buf s h
    match res with
    | none => some (phys, s, h)
    | some buf => some (copyOutHeap b buf s h)

/-! ## The tree in front of the call -/

/-- The tables that are read in the tree of depth `k` at `f` are in use. -/
def TreeTaken (s : PageState) : Nat → Frame → Prop
  | 0, _ => True
  | k + 1, f =>
    ¬ s.free f ∧ ∀ i, (s.shown f i).addr ≠ 0 → TreeTaken s k (cutFrame (s.shown f i).address)

/-- No table of the lowest level in the tree has the kernel's page table in entry 0. -/
def SharesNone (s : PageState) : Nat → Frame → Prop
  | 0, _ => True
  | k + 1, f =>
    (k = 0 → (s.shown f 0).addr ≠ 0 → (s.shown f 0).addr ≠ s.kernelPt &&& 0x0FFFFFFF#64) ∧
    ∀ i, (s.shown f i).addr ≠ 0 → SharesNone s k (cutFrame (s.shown f i).address)

/-! ## Without the heap -/

/-- The two ends of `copyOutHeap`. -/
theorem copyOutHeap_eq {b : Nat} {buf : Page} {s s' : PageState} {h h' : HeapState} {r : BitVec 64}
    (hout : copyOutHeap b buf s h = (r, s', h')) :
    (copyOut buf).run pageExec s = (r, s') ∧ h' = h.kfree b := by
  unfold copyOutHeap at hout
  generalize (copyOut buf).run pageExec s = x at hout ⊢
  obtain ⟨p, s₁⟩ := x
  cases hout
  exact ⟨rfl, rfl⟩

theorem copyLoopHeap_run {copy : BitVec 64 → PageProg (BitVec 64)}
    {copyHeap : BitVec 64 → PageState → HeapState → Option (BitVec 64 × PageState × HeapState)}
    (hcopy : ∀ phys s h r s' h', copyHeap phys s h = some (r, s', h') →
      (copy phys).run pageExec s = (r, s')) (k n : Nat) :
    ∀ i buf s h r s' h', copyLoopHeap copyHeap (k + 1) n i buf s h = some (r, s', h') →
      (copyLoop copy (k + 1) n i buf).run pageExec s = (r, s') := by
  induction n with
  | zero =>
    intro i buf s h r s' h' hrun
    cases hrun
    rfl
  | succ n ih =>
    intro i buf s h r s' h' hrun
    rw [copyLoopHeap] at hrun
    dsimp only at hrun
    by_cases h0 : (buf (BitVec.ofNat 9 i)).addr = 0
    · rw [if_neg (not_not.mpr h0)] at hrun
      rw [copyLoop_skip copy n h0]
      exact ih _ _ _ _ _ _ _ hrun
    rw [if_pos h0] at hrun
    by_cases hmet : k + 1 = 1 ∧ i = 0 ∧
        (buf (BitVec.ofNat 9 i)).addr = s.kernelPt &&& 0x0FFFFFFF#64
    · rw [if_pos hmet] at hrun
      cases hrun
      exact run_copyLoop_met copy n h0 hmet
    · rw [if_neg hmet, Option.bind_eq_bind, Option.bind_eq_some_iff] at hrun
      obtain ⟨⟨p, s₁, h₁⟩, hcall, hrest⟩ := hrun
      rw [(run_copyLoop_entry copy n h0 hmet).1, hcopy _ _ _ _ _ _ hcall]
      exact ih _ _ _ _ _ _ _ hrest

/-- `copy_page` with its calls of the heap is `copyPage`. -/
theorem copyPageHeap_run (k : Nat) : ∀ phys s h r s' h',
    copyPageHeap k phys s h = some (r, s', h') → (copyPage k phys).run pageExec s = (r, s') := by
  induction k with
  | zero =>
    intro phys s h r s' h' hrun
    rw [copyPageHeap, run_readPage, Option.bind_eq_bind, Option.bind_eq_some_iff] at hrun
    obtain ⟨⟨b, h₁⟩, -, hout⟩ := hrun
    rw [run_copyPage_zero]
    exact (copyOutHeap_eq (Option.some.inj hout)).1
  | succ k ih =>
    intro phys s h r s' h' hrun
    rw [copyPageHeap, run_readPage, Option.bind_eq_bind, Option.bind_eq_some_iff] at hrun
    obtain ⟨⟨b, h₁⟩, -, hrun⟩ := hrun
    dsimp only at hrun
    rw [Option.bind_eq_bind, Option.bind_eq_some_iff] at hrun
    obtain ⟨⟨res, s₂, h₂⟩, hloop, hend⟩ := hrun
    rw [copyPage_succ, run_copyTable (copyLoopHeap_run ih k 512 _ _ _ _ _ _ _ hloop)]
    cases res with
    | none =>
      cases hend
      rfl
    | some buf => exact (copyOutHeap_eq (Option.some.inj hend)).1

/-! ## What stays behind -/

/-- From `h` to `h'` the live allocations are the same if `P` holds, and more if not. -/
structure Balanced (P : Prop) (h h' : HeapState) : Prop where
  same : P → h'.live = h.live
  more : ¬ P → h.live.length < h'.live.length

namespace Balanced

variable {P Q : Prop} {h h₁ h₂ : HeapState}

theorem refl (hP : P) (h : HeapState) : Balanced P h h := ⟨fun _ => rfl, fun hn => absurd hP hn⟩

theorem congr (hb : Balanced P h h₁) (hPQ : P ↔ Q) : Balanced Q h h₁ :=
  ⟨fun hQ => hb.same (hPQ.mpr hQ), fun hn => hb.more fun hP => hn (hPQ.mp hP)⟩

theorem length_le (hb : Balanced P h h₁) : h.live.length ≤ h₁.live.length := by
  by_cases hP : P
  · rw [hb.same hP]
  · exact (hb.more hP).le

theorem trans (hb : Balanced P h h₁) (hb' : Balanced Q h₁ h₂) : Balanced (P ∧ Q) h h₂ := by
  refine ⟨fun hPQ => (hb'.same hPQ.2).trans (hb.same hPQ.1), fun hn => ?_⟩
  have hle := hb.length_le
  have hle' := hb'.length_le
  by_cases hP : P
  · have := hb'.more fun hQ => hn ⟨hP, hQ⟩
    omega
  · have := hb.more hP
    omega

/-- A block is taken in front and given back at the end. -/
theorem kfree {n b : Nat} (hk : h.kmalloc n = some (b, h₁)) (hb : Balanced P h₁ h₂) :
    Balanced P h (h₂.kfree b) := by
  have hlive := (HeapState.kmalloc_taken hk).held
  refine ⟨fun hP => HeapState.kfree_top ((hb.same hP).trans hlive), fun hn => ?_⟩
  have hmore := hb.more hn
  rw [hlive] at hmore
  unfold HeapState.kfree
  unfold HeapState.held at hmore
  dsimp only
  by_cases hb0 : b = 0
  · rw [if_pos hb0] at hmore ⊢
    exact hmore
  · rw [if_neg hb0, List.singleton_append, List.length_cons] at hmore
    rw [if_neg hb0]
    have hle := List.le_length_eraseP (p := fun a : Nat × Nat => decide (a.1 = b)) (l := h₂.live)
    omega

theorem iff (hb : Balanced P h h₁) : h₁.live = h.live ↔ P := by
  refine ⟨fun heq => ?_, hb.same⟩
  by_contra hn
  have hmore := hb.more hn
  rw [heq] at hmore
  omega

end Balanced

section Run

variable {s : PageState} {k : Nat}

/-- The call for the depth `k`. -/
def CopyBalance (s : PageState) (k : Nat) : Prop :=
  ∀ phys s₁ h r s₂ h', CopyKeeps s s₁ → TreeTaken s k (frameOf phys) →
    AllocsOk (copyPage k phys) s₁ → copyPageHeap k phys s₁ h = some (r, s₂, h') →
    CopyKeeps s₁ s₂ ∧ Balanced (SharesNone s k (frameOf phys)) h h'

/-- The loop from `i` on, over the entries of `page`: it has met the kernel's page table, or
the blocks that stay are those of the calls for the entries. -/
def LoopBalance (s : PageState) (k i : Nat) (page : Page) (h h' : HeapState) : Option Page → Prop
  | none =>
    i = 0 ∧ k = 0 ∧ (page 0).addr ≠ 0 ∧ (page 0).addr = s.kernelPt &&& 0x0FFFFFFF#64 ∧ h' = h
  | some _ =>
    (i = 0 → k = 0 → (page 0).addr ≠ 0 → (page 0).addr ≠ s.kernelPt &&& 0x0FFFFFFF#64) ∧
    Balanced (∀ j, i ≤ j.toNat → (page j).addr ≠ 0 → SharesNone s k (cutFrame (page j).address)) h h'

theorem copyLoop_balance (hcopy : CopyBalance s k) {page : Page}
    (htree : ∀ j, (page j).addr ≠ 0 → TreeTaken s k (cutFrame (page j).address)) (n : Nat) :
    ∀ i buf s₁ h res s₂ h', i + n = 512 → CopyKeeps s s₁ →
      (∀ j, i ≤ j.toNat → buf j = page j) → AllocsOk (copyLoop (copyPage k) (k + 1) n i buf) s₁ →
      copyLoopHeap (copyPageHeap k) (k + 1) n i buf s₁ h = some (res, s₂, h') →
      CopyKeeps s₁ s₂ ∧ LoopBalance s k i page h h' res := by
  induction n with
  | zero =>
    intro i buf s₁ h res s₂ h' hn _ _ _ hrun
    cases hrun
    refine ⟨CopyKeeps.refl s₁, fun hi => ?_, Balanced.refl (fun j hj => ?_) h⟩
    · omega
    · omega
  | succ n ih =>
    intro i buf s₁ h res s₂ h' hn hs₁ hbuf hok hrun
    have hidx : (BitVec.ofNat 9 i).toNat = i := by
      rw [BitVec.toNat_ofNat]
      omega
    have hentry : buf (BitVec.ofNat 9 i) = page (BitVec.ofNat 9 i) := hbuf _ (by omega)
    -- the entries from `i` on are entry `i` and those behind it
    have hsplit : ∀ Q : BitVec 9 → Prop, (∀ j, i ≤ j.toNat → Q j) ↔
        Q (BitVec.ofNat 9 i) ∧ ∀ j, i + 1 ≤ j.toNat → Q j := by
      refine fun Q => ⟨fun hall => ⟨hall _ (by omega), fun j hj => hall j (by omega)⟩, ?_⟩
      rintro ⟨hfirst, hrest⟩ j hj
      by_cases hji : j.toNat = i
      · rw [ofNat_toNat_index hji]
        exact hfirst
      · exact hrest j (by omega)
    rw [copyLoopHeap] at hrun
    dsimp only at hrun
    by_cases h0 : (buf (BitVec.ofNat 9 i)).addr = 0
    · rw [if_neg (not_not.mpr h0)] at hrun
      rw [copyLoop_skip _ n h0] at hok
      obtain ⟨hkeeps, hdone⟩ := ih (i + 1) buf s₁ h res s₂ h' (by omega) hs₁
        (fun j hj => hbuf j (by omega)) hok hrun
      rw [hentry] at h0
      refine ⟨hkeeps, ?_⟩
      cases res with
      | none => exact absurd hdone.1 (Nat.succ_ne_zero i)
      | some buf' =>
        refine ⟨fun hi _ hne => absurd ?_ hne, hdone.2.congr ?_⟩
        · rw [← h0, hi]
          rfl
        · rw [hsplit]
          exact ⟨fun hrest => ⟨fun hne => absurd h0 hne, hrest⟩, fun hall => hall.2⟩
    rw [if_pos h0] at hrun
    by_cases hmet : k + 1 = 1 ∧ i = 0 ∧
        (buf (BitVec.ofNat 9 i)).addr = s₁.kernelPt &&& 0x0FFFFFFF#64
    · rw [if_pos hmet] at hrun
      cases hrun
      obtain ⟨hk, rfl, haddr⟩ := hmet
      rw [hentry] at h0 haddr
      rw [hs₁.kernelPt] at haddr
      exact ⟨CopyKeeps.refl s₁, rfl, by omega, h0, haddr, rfl⟩
    · rw [if_neg hmet, Option.bind_eq_bind, Option.bind_eq_some_iff] at hrun
      obtain ⟨⟨p, s₃, h₃⟩, hcall, hrest⟩ := hrun
      dsimp only at hrest
      have hrunP := copyPageHeap_run k _ _ _ _ _ _ hcall
      rw [(run_copyLoop_entry (copyPage k) n h0 hmet).2, hrunP] at hok
      have haddr : frameOf (buf (BitVec.ofNat 9 i)).addr =
          cutFrame (page (BitVec.ofNat 9 i)).address := by
        rw [hentry, frameOf_addr]
      rw [hentry] at h0 hmet
      obtain ⟨hkeeps, hbal⟩ := hcopy _ _ _ _ _ _ hs₁ (by rw [haddr]; exact htree _ h0) hok.1 hcall
      rw [haddr] at hbal
      have hbuf' : ∀ j, i + 1 ≤ j.toNat → redirect buf i p j = page j := by
        intro j hj
        have hne : j ≠ BitVec.ofNat 9 i := by
          rintro rfl
          omega
        rw [redirect, if_neg hne]
        exact hbuf j (by omega)
      obtain ⟨hkeeps', hdone⟩ := ih (i + 1) _ s₃ h₃ res s₂ h' (by omega) (hs₁.trans hkeeps) hbuf'
        hok.2 hrest
      refine ⟨hkeeps.trans hkeeps', ?_⟩
      cases res with
      | none => exact absurd hdone.1 (Nat.succ_ne_zero i)
      | some buf' =>
        refine ⟨fun hi hk _ heq => hmet ⟨by omega, hi, ?_⟩, (hbal.trans hdone.2).congr ?_⟩
        · rw [hs₁.kernelPt, ← heq, hi]
          rfl
        · rw [hsplit]
          exact and_congr_left fun _ => ⟨fun hs _ => hs, fun hs => hs h0⟩

/-- `copy_page` leaves the heap as it was, or keeps the buffers of the tables that it shares. -/
theorem copyPage_balance (s : PageState) (k : Nat) : CopyBalance s k := by
  induction k with
  | zero =>
    intro phys s₁ h r s₂ h' hs₁ _ hok hrun
    rw [copyPageHeap, run_readPage, Option.bind_eq_bind, Option.bind_eq_some_iff] at hrun
    obtain ⟨⟨b, h₁⟩, hk, hlast⟩ := hrun
    obtain ⟨hout, rfl⟩ := copyOutHeap_eq (Option.some.inj hlast)
    have hkeeps := (copyKeeps_copyOut ((s₁.mounted phys).mem (frameOf phys))
      (allocsOk_copyPage_zero hok)).1
    rw [hout] at hkeeps
    exact ⟨(copyKeeps_closed s₁).trans hkeeps, (Balanced.refl trivial h₁).kfree hk⟩
  | succ k ih =>
    intro phys s₁ h r s₂ h' hs₁ htree hok hrun
    rw [copyPage_succ] at hok
    rw [copyPageHeap, run_readPage, Option.bind_eq_bind, Option.bind_eq_some_iff] at hrun
    obtain ⟨⟨b, h₁⟩, hk, hrun⟩ := hrun
    dsimp only at hrun
    rw [Option.bind_eq_bind, Option.bind_eq_some_iff] at hrun
    obtain ⟨⟨res, s₃, h₃⟩, hloop, hend⟩ := hrun
    -- the loop is taken with any number of rounds that ends at 512
    obtain ⟨n, hn, hn₀⟩ : ∃ n, 512 = n ∧ 0 + n = 512 := ⟨512, rfl, rfl⟩
    rw [hn] at hok hloop
    obtain ⟨hokLoop, hokEnd⟩ := allocsOk_copyTable (copyLoopHeap_run (copyPageHeap_run k) k n
      _ _ _ _ _ _ _ hloop) hok
    -- the buffer shows the table as it was
    have hpage : ∀ j : BitVec 9, 0 ≤ j.toNat →
        (s₁.mounted phys).mem (frameOf phys) j = s.shown (frameOf phys) j := by
      intro j _
      rw [← shown_keeps hs₁ htree.1, mounted_frame]
      rfl
    obtain ⟨hkeeps, hdone⟩ := copyLoop_balance ih htree.2 n 0 _ _ _ _ _ _ hn₀
      (hs₁.trans (copyKeeps_closed s₁)) hpage hokLoop hloop
    have hkeeps₃ := (copyKeeps_closed s₁).trans hkeeps
    cases res with
    | none =>
      obtain ⟨-, rfl, h0, haddr, rfl⟩ := hdone
      cases hend
      -- the buffer stays
      refine ⟨hkeeps₃, fun hnone => absurd haddr (hnone.1 rfl h0), fun _ => ?_⟩
      have htaken := HeapState.kmalloc_taken hk
      rw [htaken.held, htaken.block (Nat.succ_ne_zero _), List.singleton_append, List.length_cons]
      omega
    | some buf =>
      obtain ⟨hout, rfl⟩ := copyOutHeap_eq (Option.some.inj hend)
      have hkeeps' := (copyKeeps_copyOut buf (hokEnd (by simp))).1
      rw [hout] at hkeeps'
      refine ⟨hkeeps₃.trans hkeeps', (hdone.2.kfree hk).congr ?_⟩
      exact ⟨fun hall => ⟨hdone.1 rfl, fun j => hall j (Nat.zero_le _)⟩, fun hall j _ => hall.2 j⟩

end Run

/-- Whatever the tree of tables, at every depth: a `copy_page` that returns, all allocations
having succeeded, leaves the live allocations of `kmalloc` as they were exactly when no table
of the lowest level in the tree has the kernel's page table in entry 0. -/
theorem copy_page_balanced_iff {k : Nat} {phys r : BitVec 64} {s s' : PageState} {h h' : HeapState}
    (htree : TreeTaken s k (frameOf phys)) (hok : AllocsOk (copyPage k phys) s)
    (hrun : copyPageHeap k phys s h = some (r, s', h')) :
    h'.live = h.live ↔ SharesNone s k (frameOf phys) :=
  (copyPage_balance s k phys s h r s' h' (CopyKeeps.refl s) htree hok hrun).2.iff

/-- A run is told by the live allocations it ends with. -/
theorem copyPageHeap_live {k : Nat} {phys : BitVec 64} {s : PageState} {h : HeapState}
    {live : List (Nat × Nat)}
    (hlive : (copyPageHeap k phys s h).map (fun x => x.2.2.live) = some live) :
    ∃ r s' h', copyPageHeap k phys s h = some (r, s', h') ∧ h'.live = live := by
  obtain ⟨⟨r, s', h'⟩, hrun, hh⟩ := Option.map_eq_some_iff.mp hlive
  exact ⟨r, s', h', hrun, hh⟩

/-- An empty table. -/
def emptyTable : PageState :=
  ⟨linkMem [], bootPhys, 0x150000#64, 0xFFFFFFFFC0153000#64, 0x150000#64, 0, true⟩

theorem copy_page_balanced_iff_empty :
    ∃ r s' h', copyPageHeap 1 0x154000#64 emptyTable emptyHeap = some (r, s', h') ∧
      (h'.live = [] ↔ SharesNone emptyTable 1 (frameOf 0x154000#64)) := by
  obtain ⟨r, s', h', hrun, -⟩ := copyPageHeap_live
    (show (copyPageHeap 1 0x154000#64 emptyTable emptyHeap).map (fun x => x.2.2.live) = some [] by
      decide +kernel)
  have htree : TreeTaken emptyTable 1 (frameOf 0x154000#64) :=
    ⟨bootPhys_taken (p := (frameOf 0x154000#64).toNat) (by decide), fun _ _ => trivial⟩
  exact ⟨r, s', h', hrun, copy_page_balanced_iff htree (by decide +kernel) hrun⟩

/-- The kernel's own tables, as they are in every address space. -/
def kernelTables : PageState :=
  { emptyTable with
    mem := linkMem [(0x150, 511, 0x151), (0x151, 511, 0x152), (0x152, 0, 0x153)] }

/-- The copy of an address space leaves a buffer behind. -/
theorem copy_page_keeps_buffer :
    AllocsOk (copyPage 4 kernelTables.cr3) kernelTables ∧
    ∃ r s' h', copyPageHeap 4 kernelTables.cr3 kernelTables emptyHeap = some (r, s', h') ∧
      emptyHeap.live = [] ∧ h'.live.length = 1 := by
  refine ⟨by decide +kernel, ?_⟩
  obtain ⟨r, s', h', hrun, hlive⟩ := copyPageHeap_live
    (show (copyPageHeap 4 kernelTables.cr3 kernelTables emptyHeap).map (fun x => x.2.2.live) =
      some [(0xFFFFFFFFC0203040, 4096)] by decide +kernel)
  exact ⟨r, s', h', hrun, rfl, by rw [hlive]; rfl⟩

end OS64.Mm
