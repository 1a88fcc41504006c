import OS64.Mm.HeapRun

/-!
# Calls of the heap that succeed

A function of the kernel that asks for blocks and gives them back is followed by what it does
to the live allocations. `HeapState.kmalloc` is `kmalloc` where it succeeds: it returns, and
what it returns for a size other than 0 is a block that no live allocation has, as every block of
a reachable heap is (`heapCall_effect`).

A block that is given back leaves the others as they were, those taken since and those taken
before: `kfree_held`.
-/

namespace OS64.Mm

open OS64.Lib.Tiling

namespace HeapState

/-- `kmalloc`, and the allocations live after it; `none` where it does not succeed. -/
def kmalloc (s : HeapState) (n : Nat) : Option (Nat × HeapState) :=
  match Mm.kmalloc s.heap n with
  | none => none
  | some (p, h) =>
    if (p = 0 ∧ n ≠ 0) ∨ p ∈ s.live.map Prod.fst then none
    else some (p, { heap := h, live := liveAfter s.live p n })

/-- `kfree`, and the allocations live after it. -/
def kfree (s : HeapState) (p : Nat) : HeapState where
  heap := Mm.kfree s.heap p
  live := if p = 0 then s.live else s.live.eraseP fun a => a.1 = p

variable {s s' : HeapState} {n p : Nat} {live : List (Nat × Nat)}

/-- What a call that succeeds returns. -/
structure Taken (s : HeapState) (n p : Nat) (s' : HeapState) : Prop where
  live : s'.live = liveAfter s.live p n
  fresh : p ∉ s.live.map Prod.fst
  null : p = 0 ↔ n = 0

theorem kmalloc_taken (h : s.kmalloc n = some (p, s')) : Taken s n p s' := by
  unfold kmalloc at h
  split at h
  · cases h
  · rename_i q h' hk
    split at h
    · cases h
    · rename_i hok
      obtain ⟨rfl, rfl⟩ := Prod.mk.inj (Option.some.inj h)
      rw [not_or, not_and_not_right] at hok
      refine ⟨rfl, hok.2, hok.1, ?_⟩
      rintro rfl
      have hnull : Mm.kmalloc s.heap 0 = some (0, s.heap) := if_pos (Or.inl rfl)
      rw [hnull] at hk
      exact (Prod.mk.inj (Option.some.inj hk)).1.symm

theorem kfree_null (s : HeapState) : (s.kfree 0).live = s.live := by
  rw [kfree, if_pos rfl]

/-- The block that a call has returned, none for a null pointer. -/
def held (p n : Nat) : List (Nat × Nat) := if p = 0 then [] else [(p, n)]

theorem liveAfter_eq (live : List (Nat × Nat)) (p n : Nat) : liveAfter live p n = held p n ++ live := by
  unfold liveAfter held
  split <;> rfl

theorem Taken.held (h : Taken s n p s') : s'.live = held p n ++ s.live := by
  rw [h.live, liveAfter_eq]

/-- For a size other than 0 it is a block. -/
theorem Taken.block (h : Taken s n p s') (hn : n ≠ 0) : HeapState.held p n = [(p, n)] :=
  if_neg fun hp => hn (h.null.mp hp)

theorem Taken.no_block (h : Taken s n p s') (hn : n = 0) : HeapState.held p n = [] :=
  if_pos (h.null.mpr hn)

theorem Taken.congr {s₁ : HeapState} (h : Taken s₁ n p s') (heq : s₁.live = s.live) : Taken s n p s' := by
  obtain ⟨hlive, hfresh, hnull⟩ := h
  rw [heq] at hlive hfresh
  exact ⟨hlive, hfresh, hnull⟩

theorem mem_held {q : Nat} (h : q ∈ (held p n).map Prod.fst) : q = p := by
  unfold held at h
  split at h
  · exact absurd h List.not_mem_nil
  · exact List.mem_singleton.mp h

/-- A block that is no null pointer is live. -/
theorem Taken.mem (h : Taken s n p s') (hp : p ≠ 0) : p ∈ s'.live.map Prod.fst := by
  rw [h.held, HeapState.held, if_neg hp]
  exact List.mem_cons_self

/-- A block is given back from below those taken since. -/
theorem kfree_held {above : List (Nat × Nat)} (h : s.live = above ++ (held p n ++ live))
    (hne : p ≠ 0 → p ∉ above.map Prod.fst) : (s.kfree p).live = above ++ live := by
  by_cases hp : p = 0
  · rw [hp, kfree_null, h, hp, HeapState.held, if_pos rfl, List.nil_append]
  · have habove : ∀ a ∈ above, ¬ decide (a.1 = p) = true := by
      intro a ha heq
      exact hne hp (List.mem_map.mpr ⟨a, ha, of_decide_eq_true heq⟩)
    unfold kfree
    dsimp only
    rw [if_neg hp, h, HeapState.held, if_neg hp, List.eraseP_append_right _ habove,
      List.singleton_append, List.eraseP_cons_of_pos (by simp)]

/-- The last block taken is given back. -/
theorem kfree_top (h : s.live = held p n ++ live) : (s.kfree p).live = live :=
  @kfree_held s n p live [] h fun _ => List.not_mem_nil

end HeapState

/-- A heap with nothing allocated. -/
def emptyHeap : HeapState := heapInit 0x200000 fun _ => 0

end OS64.Mm
