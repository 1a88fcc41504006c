import OS64.Mm.HeapRun

/-!
# The heap chain is a function of the live blocks

`kfree` joins the block it gets with both neighbours, so free neighbours never stay
apart, and the free blocks are exactly the gaps between the taken ones. What two
histories of calls leave is then the same chain as soon as the live blocks, with the
sizes in their headers, are the same (`heap_chain_canonical`): the order of frees does
not matter, an allocation that is given back leaves no trace, and an empty heap is the
one `mem_init` made.

`TakenLive` is the half of the tie between chain and live allocations that the results
of `HeapRun` do without: no block stays taken without an owner.
-/

namespace OS64.Mm

open OS64.Lib (ByteMem)
open OS64.Lib.Tiling

/-- A block of the chain is live with its header at `x` and `k` as its recorded size. -/
def LiveBlock (s : HeapState) (x k : Nat) : Prop :=
  (∃ n, (x + 16, n) ∈ s.live) ∧ (header s.heap.mem x).size = k

/-- Two heaps have the same headers, each with the same magic, size, mark and link. -/
def SameChain (h h' : Heap) : Prop :=
  (∀ a, IsHeader h a ↔ IsHeader h' a) ∧ ∀ a, IsHeader h a → header h.mem a = header h'.mem a

/-- The live allocations `ps` given back one after the other. -/
def freeAll (s : HeapState) (ps : List (Nat × Nat)) : HeapState :=
  ps.foldl (fun s a => { heap := kfree s.heap a.1, live := s.live.erase a }) s

/-- Every taken block belongs to a live allocation. -/
def TakenLive (s : HeapState) : Prop :=
  ∀ x, IsHeader s.heap x → (header s.heap.mem x).free = 0 → ∃ n, (x + 16, n) ∈ s.live

section State

variable {s s' : HeapState} {bs bs' : List Block}

/-- The live blocks are the taken blocks of the tiling. -/
theorem liveBlock_iff (hinv : HeapInv s bs) (hall : TakenLive s) {x k : Nat} :
    LiveBlock s x k ↔ BlockAt 16 s.heap.kernelHeap bs x ⟨k, false⟩ := by
  constructor
  · rintro ⟨⟨n, hn⟩, hk⟩
    obtain ⟨y, b, hy, hp, hfree, -⟩ := hinv.live _ hn
    have hxy : y = x := by
      change x + 16 = y + 16 at hp
      omega
    subst hxy
    rw [hinv.rep.size_at hy] at hk
    rw [← hk, ← hfree]
    exact hy
  · intro hx
    refine ⟨hall x ((hinv.rep.isHeader_iff).mpr ⟨_, hx⟩) (hinv.rep.free_at hx), hinv.rep.size_at hx⟩

/-- One chain of blocks has one memory image. -/
theorem chain_header_eq {m m' : ByteMem} {x : Nat} {b : Block} {prev a : Nat}
    (hm : Chain m prev a bs) (hm' : Chain m' prev a bs) (hx : BlockAt 16 a bs x b) :
    header m x = header m' x := by
  induction bs generalizing prev a with
  | nil => exact absurd hx not_blockAt_nil
  | cons c bs ih =>
    rcases blockAt_cons.mp hx with ⟨rfl, -⟩ | hx
    · exact hm.1.trans hm'.1.symm
    · exact ih hm.2 hm'.2 hx

/-- The chain follows from the region and the taken blocks. -/
theorem sameChain_of_taken {h h' : Heap} (hr : HeapRep h bs) (hr' : HeapRep h' bs')
    (hbase : h'.kernelHeap = h.kernelHeap)
    (htaken : ∀ x k, BlockAt 16 h.kernelHeap bs x ⟨k, false⟩ ↔
      BlockAt 16 h.kernelHeap bs' x ⟨k, false⟩) : SameChain h h' := by
  have htop := hr.top
  have htop' := hr'.top
  have hspan : span 16 bs = span 16 bs' := by
    rw [hr.tiles, hr'.tiles]
    omega
  have hbs : bs = bs' := coalesced_ext (by omega) hr.coalesced hr'.coalesced hspan htaken
  subst hbs
  have hchain' := hr'.chain
  rw [hbase] at hchain'
  constructor
  · intro a
    rw [hr.isHeader_iff, hr'.isHeader_iff, hbase]
  · intro a ha
    obtain ⟨b, hb⟩ := hr.isHeader_iff.mp ha
    exact chain_header_eq hr.chain hchain' hb

/-- States of one region with the same live blocks have the same chain. -/
theorem sameChain_of_live (hinv : HeapInv s bs) (hinv' : HeapInv s' bs') (hall : TakenLive s)
    (hall' : TakenLive s') (hbase : s'.heap.kernelHeap = s.heap.kernelHeap)
    (hlive : ∀ x k, LiveBlock s x k ↔ LiveBlock s' x k) : SameChain s.heap s'.heap := by
  refine sameChain_of_taken hinv.rep hinv'.rep hbase fun x k => ?_
  rw [← liveBlock_iff hinv hall, hlive, liveBlock_iff hinv' hall', hbase]

end State

/-! ## What a call does to the live blocks -/

section Calls

variable {s : HeapState} {bs : List Block}

/-- `TakenLive` in terms of the tiling. -/
theorem takenLive_iff (hr : HeapRep s.heap bs) :
    TakenLive s ↔ ∀ x k, BlockAt 16 s.heap.kernelHeap bs x ⟨k, false⟩ →
      ∃ n, (x + 16, n) ∈ s.live := by
  constructor
  · intro h x k hx
    exact h x (hr.isHeader_iff.mpr ⟨_, hx⟩) (hr.free_at hx)
  · intro h x hx hfree
    obtain ⟨⟨k, f⟩, hb⟩ := hr.isHeader_iff.mp hx
    rw [hr.free_at hb] at hfree
    cases f with
    | false => exact h x k hb
    | true => cases hfree

/-- A call that takes a free block keeps all taken blocks owned and adds one live block. -/
theorem kmallocTake_liveBlock {pre post : List Block} {b : Block} {n : Nat}
    (hinv : HeapInv s (pre ++ b :: post)) (hall : TakenLive s) (hfree : b.free = true)
    (hn : 1 ≤ n) (hsize : n ≤ b.size) {t : HeapState}
    (ht : t = { heap := { s.heap with mem := kmallocTake s.heap n (s.heap.kernelHeap + span 16 pre) }
                live := (s.heap.kernelHeap + span 16 pre + 16, n) :: s.live }) :
    HeapInv t (pre ++ (takeBlock 16 n b ++ post)) ∧ TakenLive t ∧
    ∀ x k, LiveBlock t x k ↔ LiveBlock s x k ∨
      (x = s.heap.kernelHeap + span 16 pre ∧ k = if n + 16 < b.size then n else b.size) := by
  have hinv' := (kmallocTake_effect hinv hfree hn hsize).inv
  rw [← ht] at hinv'
  have hbase : t.heap.kernelHeap = s.heap.kernelHeap := by rw [ht]
  have hlive : t.live = (s.heap.kernelHeap + span 16 pre + 16, n) :: s.live := by rw [ht]
  have hall' : TakenLive t := by
    rw [takenLive_iff hinv'.rep, hbase, hlive]
    intro x k hx
    rcases (taken_takeBlock hfree).mp hx with hx | ⟨rfl, -⟩
    · obtain ⟨l, hl⟩ := (takenLive_iff hinv.rep).mp hall x k hx
      exact ⟨l, List.mem_cons_of_mem _ hl⟩
    · exact ⟨n, List.mem_cons_self⟩
  refine ⟨hinv', hall', fun x k => ?_⟩
  rw [liveBlock_iff hinv' hall', hbase, taken_takeBlock hfree, liveBlock_iff hinv hall]

/-- Giving back a live allocation keeps all taken blocks owned and removes one live block. -/
theorem kfree_liveBlock {p n : Nat} (hinv : HeapInv s bs) (hall : TakenLive s)
    (hlive : (p, n) ∈ s.live) {t : HeapState}
    (ht : t = { heap := kfree s.heap p, live := s.live.erase (p, n) }) :
    (∃ cs, HeapInv t cs) ∧ TakenLive t ∧ t.heap.kernelHeap = s.heap.kernelHeap ∧
    ∀ x k, LiveBlock t x k ↔ LiveBlock s x k ∧ x + 16 ≠ p := by
  obtain ⟨pre, b, post, rfl, hp, heff⟩ := kfree_effect hinv hlive
  rw [← ht] at heff
  have hinv' := heff.inv
  have hbase := heff.base
  have htlive : t.live = s.live.erase (p, n) := by rw [ht]
  have htaken : ∀ x k, BlockAt 16 s.heap.kernelHeap (release 16 pre b post) x ⟨k, false⟩ ↔
      BlockAt 16 s.heap.kernelHeap (pre ++ b :: post) x ⟨k, false⟩ ∧ x + 16 ≠ p := by
    intro x k
    rw [taken_release (by omega), show x + 16 ≠ p ↔ x ≠ s.heap.kernelHeap + span 16 pre by omega]
  have hall' : TakenLive t := by
    rw [takenLive_iff hinv'.rep, hbase]
    intro x k hx
    obtain ⟨hx, hne⟩ := (htaken x k).mp hx
    obtain ⟨l, hl⟩ := (takenLive_iff hinv.rep).mp hall x k hx
    rw [htlive]
    exact ⟨l, (List.mem_erase_of_ne fun h => hne (Prod.mk.inj h).1).mpr hl⟩
  refine ⟨⟨_, hinv'⟩, hall', hbase, fun x k => ?_⟩
  rw [liveBlock_iff hinv' hall', hbase, htaken, liveBlock_iff hinv hall]

end Calls

/-! ## Along a run -/

/-- The invariant that makes the chain a function of the live blocks. -/
def CanonInv (H : Nat) (s : HeapState) : Prop :=
  (∃ bs, HeapInv s bs) ∧ TakenLive s ∧ s.heap.kernelHeap = H

/-- A call that does not walk off the chain either does nothing or adds one live block,
which was none before. -/
theorem kmalloc_liveBlock {H n p : Nat} {s : HeapState} {h' : Heap} (hc : CanonInv H s)
    (hoff : ¬ kmallocWalksOff s.heap n) (hret : kmalloc s.heap n = some (p, h')) {t : HeapState}
    (ht : t = { heap := h', live := liveAfter s.live p n }) :
    (p = 0 ∧ t = s) ∨
    (p ≠ 0 ∧ (p, n) ∈ t.live ∧ CanonInv H t ∧ (∀ k, ¬ LiveBlock s (p - 16) k) ∧
      ∃ l : Nat, ∀ x k, LiveBlock t x k ↔ LiveBlock s x k ∨ (x = p - 16 ∧ k = l)) := by
  obtain ⟨⟨bs, hinv⟩, hall, hH⟩ := hc
  rcases kmalloc_cases hinv.rep hoff with ⟨-, hrej⟩ | ⟨hn, -, pre, b, post, rfl, hfree, hsize, -, htake⟩
  · rw [hrej] at hret
    obtain ⟨rfl, rfl⟩ := Prod.mk.inj (Option.some.inj hret)
    exact Or.inl ⟨rfl, ht⟩
  · rw [htake] at hret
    obtain ⟨rfl, rfl⟩ := Prod.mk.inj (Option.some.inj hret)
    rw [liveAfter, if_neg (by omega)] at ht
    obtain ⟨hinv', hall', hiff⟩ := kmallocTake_liveBlock hinv hall hfree hn hsize ht
    have hsub : s.heap.kernelHeap + span 16 pre + 16 - 16 = s.heap.kernelHeap + span 16 pre := by
      omega
    refine Or.inr ⟨by omega, by rw [ht]; exact List.mem_cons_self,
      ⟨⟨_, hinv'⟩, hall', by rw [ht]; exact hH⟩, fun k hk => ?_,
      if n + 16 < b.size then n else b.size, fun x k => ?_⟩
    · -- the block was free
      rw [hsub, liveBlock_iff hinv hall] at hk
      have hat := blockAt_mid (o := 16) s.heap.kernelHeap pre b post
      rcases hk.disjoint hat with ⟨-, rfl⟩ | hlt | hlt
      · cases hfree
      · omega
      · omega
    · rw [hsub]
      exact hiff x k

theorem heapStep_canon {H : Nat} {s s' : HeapState} (hstep : HeapStep s s')
    (hc : CanonInv H s) : CanonInv H s' := by
  have hc' := hc
  obtain ⟨⟨bs, hinv⟩, hall, hH⟩ := hc
  cases hstep with
  | call hcall =>
    cases hcall with
    | @kmalloc n p h' hoff hret =>
      rcases kmalloc_liveBlock hc' hoff hret rfl with ⟨-, heq⟩ | ⟨-, -, hc, -⟩
      · rw [heq]
        exact hc'
      · exact hc
    | kfreeNull => exact hc'
    | kfree hlive =>
      obtain ⟨hinv', hall', hbase, -⟩ := kfree_liveBlock hinv hall hlive rfl
      exact ⟨hinv', hall', hbase.trans hH⟩
  | @store p n x v hlive hx hx' =>
    have hinv' := store_inv (v := v) hinv hlive hx hx'
    refine ⟨⟨bs, hinv'⟩, (takenLive_iff hinv'.rep).mpr ?_, hH⟩
    exact (takenLive_iff hinv.rep).mp hall

theorem heapInit_canon {lastPage : Nat} (halign : lastPage % 0x1000 = 0) (hlp : lastPage < 2 ^ 30)
    (m : ByteMem) : CanonInv (memInit lastPage m).kernelHeap (heapInit lastPage m) := by
  have hinv := heapInit_inv halign hlp m
  refine ⟨⟨_, hinv⟩, (takenLive_iff hinv.rep).mpr fun x k hx => ?_, rfl⟩
  rcases blockAt_cons.mp hx with ⟨-, hb⟩ | hx
  · cases hb
  · exact absurd hx not_blockAt_nil

/-- States of one region with the same live blocks have the same chain. -/
theorem CanonInv.sameChain {H : Nat} {s t : HeapState} (hs : CanonInv H s) (ht : CanonInv H t)
    (hlive : ∀ x k, LiveBlock s x k ↔ LiveBlock t x k) : SameChain s.heap t.heap := by
  obtain ⟨⟨bs, hinv⟩, hall, hH⟩ := hs
  obtain ⟨⟨bs', hinv'⟩, hall', hH'⟩ := ht
  exact sameChain_of_live hinv hinv' hall hall' (hH'.trans hH.symm) hlive

/-- Giving back different live allocations removes their blocks and no others. -/
theorem freeAll_liveBlock {H : Nat} {ps : List (Nat × Nat)} {s : HeapState} (hc : CanonInv H s)
    (hsub : ∀ a ∈ ps, a ∈ s.live) (hnodup : ps.Nodup) :
    CanonInv H (freeAll s ps) ∧
    ∀ x k, LiveBlock (freeAll s ps) x k ↔ LiveBlock s x k ∧ ∀ a ∈ ps, x + 16 ≠ a.1 := by
  induction ps generalizing s with
  | nil => exact ⟨hc, fun x k => by simp [freeAll]⟩
  | cons a ps ih =>
    obtain ⟨⟨bs, hinv⟩, hall, hH⟩ := hc
    obtain ⟨hinv', hall', hbase, hiff⟩ := kfree_liveBlock hinv hall (hsub a List.mem_cons_self) rfl
    rw [List.nodup_cons] at hnodup
    have hrest : ∀ b ∈ ps, b ∈ s.live.erase (a.1, a.2) := by
      intro b hb
      refine (List.mem_erase_of_ne fun h => ?_).mpr (hsub b (List.mem_cons_of_mem _ hb))
      rw [h] at hb
      exact hnodup.1 hb
    obtain ⟨hc', hps⟩ := ih (s := { heap := kfree s.heap a.1, live := s.live.erase (a.1, a.2) })
      ⟨hinv', hall', hbase.trans hH⟩ hrest hnodup.2
    refine ⟨hc', fun x k => (hps x k).trans ?_⟩
    rw [hiff, List.forall_mem_cons, and_assoc]

section Run

variable {lastPage : Nat} {m : ByteMem} {s : HeapState}

theorem heapRun_canon (halign : lastPage % 0x1000 = 0) (hlp : lastPage < 2 ^ 30)
    (hrun : Relation.ReflTransGen HeapStep (heapInit lastPage m) s) :
    CanonInv (memInit lastPage m).kernelHeap s :=
  OS64.Lib.run_invariant (CanonInv (memInit lastPage m).kernelHeap)
    (fun _ _ hc hstep => heapStep_canon hstep hc) hrun
    (heapInit_canon halign hlp m)

/-- The chain a run leaves depends on its live blocks only. Live allocations given back
in two orders leave the same chain, one given back at once leaves the chain of before,
and without live allocations the chain is the one block of `mem_init`. -/
theorem heap_chain_canonical (halign : lastPage % 0x1000 = 0) (hlp : lastPage < 2 ^ 30)
    (hrun : Relation.ReflTransGen HeapStep (heapInit lastPage m) s) :
    (∀ t, Relation.ReflTransGen HeapStep (heapInit lastPage m) t →
      (∀ x k, LiveBlock s x k ↔ LiveBlock t x k) → SameChain s.heap t.heap) ∧
    (∀ ps qs : List (Nat × Nat), (∀ a ∈ ps, a ∈ s.live) → ps.Nodup → ps.Perm qs →
      SameChain (freeAll s ps).heap (freeAll s qs).heap) ∧
    (∀ n p h', ¬ kmallocWalksOff s.heap n → kmalloc s.heap n = some (p, h') →
      SameChain s.heap (kfree h' p)) ∧
    (s.live = [] → SameChain s.heap (memInit lastPage m)) := by
  have hc := heapRun_canon halign hlp hrun
  refine ⟨?_, ?_, ?_, ?_⟩
  · intro t ht hlive
    exact hc.sameChain (heapRun_canon halign hlp ht) hlive
  · intro ps qs hps hnodup hperm
    obtain ⟨hc₁, h₁⟩ := freeAll_liveBlock hc hps hnodup
    obtain ⟨hc₂, h₂⟩ := freeAll_liveBlock hc (fun a ha => hps a (hperm.mem_iff.mpr ha))
      (hperm.nodup_iff.mp hnodup)
    refine hc₁.sameChain hc₂ fun x k => ?_
    rw [h₁, h₂]
    exact and_congr_right fun _ => ⟨fun h a ha => h a (hperm.mem_iff.mpr ha),
      fun h a ha => h a (hperm.mem_iff.mp ha)⟩
  · intro n p h' hoff hret
    rcases kmalloc_liveBlock hc hoff hret rfl with ⟨rfl, heq⟩ | ⟨hp, hmem, hct, hnew, l, hiff⟩
    · -- a null pointer is given back: nothing happens
      have hh : h' = s.heap := congrArg HeapState.heap heq
      rw [hh]
      exact hc.sameChain hc fun _ _ => Iff.rfl
    · -- the block is the only one that came, and it goes
      obtain ⟨⟨bs, hinv⟩, hall, hH⟩ := hct
      obtain ⟨hinv', hall', hbase, hfree⟩ := kfree_liveBlock hinv hall hmem rfl
      refine hc.sameChain ⟨hinv', hall', hbase.trans hH⟩ fun x k => ?_
      rw [hfree, hiff]
      constructor
      · intro hx
        refine ⟨Or.inl hx, fun hxp => hnew k ?_⟩
        rw [← hxp]
        exact hx
      · rintro ⟨hx | ⟨hx, -⟩, hne⟩
        · exact hx
        · obtain ⟨y, c, -, hpy, -⟩ := hinv.live _ hmem
          change p = y + 16 at hpy
          omega
  · intro hnil
    refine hc.sameChain (heapInit_canon halign hlp m) fun x k => ?_
    constructor
    · rintro ⟨⟨n, hn⟩, -⟩
      rw [hnil] at hn
      exact absurd hn List.not_mem_nil
    · rintro ⟨⟨n, hn⟩, -⟩
      exact absurd hn List.not_mem_nil

/-- The same blocks are left by a run that takes 30, 120 and 200 bytes and gives back the 120. -/
theorem heldHeap_run : ∃ s, RunTo 0x200000 (fun _ => 0) mergedBlocks mergedLive.reverse s := by
  have hstart : ∃ s, RunTo 0x200000 (fun _ => 0) ([] ++ ⟨0x3FDFFFF0, true⟩ :: []) [] s :=
    ⟨_, runTo_start (by decide) (by decide) _⟩
  have hfirst : ∃ s, RunTo 0x200000 (fun _ => 0) ([⟨30, false⟩] ++ ⟨0x3FDFFFC2, true⟩ :: [])
      [(0xFFFFFFFFC0200010, 30)] s :=
    runTo_kmalloc 30 hstart (by decide) (by decide) (by decide) rfl rfl
  have hsecond : ∃ s, RunTo 0x200000 (fun _ => 0)
      ([⟨30, false⟩, ⟨120, false⟩] ++ ⟨0x3FDFFF3A, true⟩ :: [])
      [(0xFFFFFFFFC020003E, 120), (0xFFFFFFFFC0200010, 30)] s :=
    runTo_kmalloc 120 hfirst (by decide) (by decide) (by decide) rfl rfl
  have hthird : ∃ s, RunTo 0x200000 (fun _ => 0)
      ([⟨30, false⟩] ++ ⟨120, false⟩ :: [⟨200, false⟩, ⟨0x3FDFFE62, true⟩])
      [(0xFFFFFFFFC02000C6, 200), (0xFFFFFFFFC020003E, 120), (0xFFFFFFFFC0200010, 30)] s :=
    runTo_kmalloc 200 hsecond (by decide) (by decide) (by decide) rfl rfl
  exact runTo_kfree 0xFFFFFFFFC020003E 120 hthird rfl (by decide) rfl (by decide)

/-- `heap_chain_canonical` on two runs with the same live blocks, and on the two orders of giving
them back. -/
theorem heap_chain_canonical_merged :
    ∃ s t, RunTo 0x200000 (fun _ => 0) mergedBlocks mergedLive s ∧
      RunTo 0x200000 (fun _ => 0) mergedBlocks mergedLive.reverse t ∧ SameChain s.heap t.heap ∧
      SameChain (freeAll s mergedLive).heap (freeAll s mergedLive.reverse).heap := by
  obtain ⟨s, hs⟩ := mergedHeap_run
  obtain ⟨t, ht⟩ := heldHeap_run
  obtain ⟨hsame, horder, -, -⟩ := heap_chain_canonical (by decide) (by decide) hs.run
  refine ⟨s, t, hs, ht, hsame t ht.run fun x k => ?_,
    horder mergedLive mergedLive.reverse (fun a ha => hs.live ▸ ha) (by decide)
      (List.reverse_perm _).symm⟩
  have hheader : ∀ n, (x + 16, n) ∈ mergedLive → header s.heap.mem x = header t.heap.mem x := by
    intro n hn
    have hat : BlockAt 16 s.heap.kernelHeap mergedBlocks x ⟨n, false⟩ := by
      rw [hs.base]
      rcases List.mem_cons.mp hn with h | h
      · obtain ⟨hx, rfl⟩ := Prod.mk.inj h
        exact ⟨[], _, rfl, Nat.add_right_cancel hx⟩
      · obtain ⟨hx, rfl⟩ := Prod.mk.inj (List.mem_singleton.mp h)
        exact ⟨[⟨30, false⟩, ⟨120, true⟩], _, rfl, Nat.add_right_cancel hx⟩
    have hbase : t.heap.kernelHeap = s.heap.kernelHeap := ht.base.trans hs.base.symm
    exact chain_header_eq hs.rep.chain (hbase ▸ ht.rep.chain) hat
  unfold LiveBlock
  rw [hs.live, ht.live]
  constructor
  · rintro ⟨⟨n, hn⟩, hk⟩
    exact ⟨⟨n, List.mem_reverse.mpr hn⟩, by rw [← hheader n hn, hk]⟩
  · rintro ⟨⟨n, hn⟩, hk⟩
    have hn := List.mem_reverse.mp hn
    exact ⟨⟨n, hn⟩, by rw [hheader n hn, hk]⟩

end Run

end OS64.Mm
