import Mathlib.Data.List.Chain

/-!
# Tilings of a range by headed blocks

The abstract side of a boundary-tag allocator: a range of addresses cut into
consecutive blocks, each a header of `o` bytes followed by `size` bytes of
payload, each marked free or taken. Nothing here knows how a header is stored.

* `span o bs` is the number of bytes the blocks `bs` cover, and
  `BlockAt o a bs x b` says that, laid out from address `a`, block `b` has its
  header at `x`. Extents of different blocks do not overlap
  (`BlockAt.disjoint`), which is all that isolation between clients needs.
* `Coalesced bs`: no two neighbours are both free.
* `takeBlock o n b` is what allocating `n` bytes makes of a free block `b`, and
  `release o pre b post` is the tiling after block `b` is given back, joined
  with the free neighbours it has. Both keep the range tiled
  (`span_takeBlock`, `span_release`), keep every size positive and keep the
  tiling coalesced.
-/

namespace OS64.Lib.Tiling

/-- One block: payload size and whether it is free. -/
structure Block where
  size : Nat
  free : Bool
deriving DecidableEq, Repr

variable {o : Nat}

/-- Bytes covered by the blocks, headers included. -/
def span (o : Nat) : List Block → Nat
  | [] => 0
  | b :: bs => o + b.size + span o bs

@[simp] theorem span_nil : span o [] = 0 := rfl

@[simp] theorem span_cons (b : Block) (bs : List Block) :
    span o (b :: bs) = o + b.size + span o bs := rfl

@[simp] theorem span_append : ∀ xs ys : List Block, span o (xs ++ ys) = span o xs + span o ys
  | [], ys => by simp
  | x :: xs, ys => by
    rw [List.cons_append, span_cons, span_cons, span_append xs ys]
    omega

/-! ## Where a block lies -/

/-- Laid out from `a`, block `b` of `bs` has its header at `x`. -/
def BlockAt (o a : Nat) (bs : List Block) (x : Nat) (b : Block) : Prop :=
  ∃ pre post, bs = pre ++ b :: post ∧ x = a + span o pre

theorem blockAt_mid (a : Nat) (pre : List Block) (b : Block) (post : List Block) :
    BlockAt o a (pre ++ b :: post) (a + span o pre) b :=
  ⟨pre, post, rfl, rfl⟩

theorem not_blockAt_nil {a x : Nat} {b : Block} : ¬ BlockAt o a [] x b := by
  rintro ⟨pre, post, h, -⟩
  simp at h

theorem blockAt_cons {a x : Nat} {b c : Block} {bs : List Block} :
    BlockAt o a (c :: bs) x b ↔ (x = a ∧ b = c) ∨ BlockAt o (a + o + c.size) bs x b := by
  constructor
  · rintro ⟨pre, post, h, hx⟩
    cases pre with
    | nil =>
      simp only [List.nil_append, List.cons.injEq] at h
      exact Or.inl ⟨by simpa using hx, h.1.symm⟩
    | cons d pre =>
      simp only [List.cons_append, List.cons.injEq] at h
      obtain ⟨rfl, rfl⟩ := h
      exact Or.inr ⟨pre, post, rfl, by rw [hx, span_cons]; omega⟩
  · rintro (⟨rfl, rfl⟩ | ⟨pre, post, rfl, rfl⟩)
    · exact ⟨[], bs, rfl, by simp⟩
    · exact ⟨c :: pre, post, rfl, by rw [span_cons]; omega⟩

theorem blockAt_append {a x : Nat} {b : Block} : ∀ {xs ys : List Block},
    BlockAt o a (xs ++ ys) x b ↔ BlockAt o a xs x b ∨ BlockAt o (a + span o xs) ys x b
  | [], ys => by simp [not_blockAt_nil]
  | c :: xs, ys => by
    have hadd : a + o + c.size + span o xs = a + (o + c.size + span o xs) := by omega
    rw [List.cons_append, blockAt_cons, blockAt_append, blockAt_cons, or_assoc, span_cons, hadd]

theorem BlockAt.mem {a x : Nat} {b : Block} {bs : List Block} (h : BlockAt o a bs x b) :
    b ∈ bs := by
  obtain ⟨pre, post, rfl, -⟩ := h
  simp

theorem BlockAt.bounds {a x : Nat} {b : Block} {bs : List Block} (h : BlockAt o a bs x b) :
    a ≤ x ∧ x + o + b.size ≤ a + span o bs := by
  obtain ⟨pre, post, rfl, rfl⟩ := h
  rw [span_append, span_cons]
  omega

/-- Two blocks of one tiling are the same block or do not overlap. -/
theorem BlockAt.disjoint {a x y : Nat} {b c : Block} : ∀ {bs : List Block},
    BlockAt o a bs x b → BlockAt o a bs y c →
      (x = y ∧ b = c) ∨ x + o + b.size ≤ y ∨ y + o + c.size ≤ x := by
  intro bs
  induction bs generalizing a with
  | nil => exact fun h => absurd h not_blockAt_nil
  | cons d bs ih =>
    intro hx hy
    rcases blockAt_cons.mp hx with ⟨rfl, rfl⟩ | hx'
    · rcases blockAt_cons.mp hy with ⟨rfl, rfl⟩ | hy'
      · exact Or.inl ⟨rfl, rfl⟩
      · exact Or.inr (Or.inl hy'.bounds.1)
    · rcases blockAt_cons.mp hy with ⟨rfl, rfl⟩ | hy'
      · exact Or.inr (Or.inr hx'.bounds.1)
      · exact ih hx' hy'

/-- Replacing a stretch by another of the same length leaves the blocks outside
it where they are. -/
theorem BlockAt.replace {a x : Nat} {pre post : List Block} {b : Block} (mid mid' : List Block)
    (h : BlockAt o a (pre ++ (mid ++ post)) x b) (hspan : span o mid' = span o mid)
    (hout : ¬ BlockAt o (a + span o pre) mid x b) : BlockAt o a (pre ++ (mid' ++ post)) x b := by
  rcases blockAt_append.mp h with h | h
  · exact blockAt_append.mpr (Or.inl h)
  · rcases blockAt_append.mp h with h | h
    · exact absurd h hout
    · exact blockAt_append.mpr (Or.inr (blockAt_append.mpr (Or.inr (by rwa [hspan]))))

/-! ## Coalescing -/

/-- No two neighbouring blocks are both free. -/
def Coalesced (bs : List Block) : Prop :=
  bs.IsChain fun b c => ¬ (b.free = true ∧ c.free = true)

/-- What allocating `n` bytes makes of a free block: the block itself, now
taken, or a taken block of `n` bytes and a free rest. -/
def takeBlock (o n : Nat) (b : Block) : List Block :=
  if n + o < b.size then [⟨n, false⟩, ⟨b.size - n - o, true⟩] else [⟨b.size, false⟩]

theorem span_takeBlock (n : Nat) (b : Block) : span o (takeBlock o n b) = o + b.size := by
  unfold takeBlock
  split
  · simp only [span_cons, span_nil]
    omega
  · simp

theorem takeBlock_pos {n : Nat} {b : Block} (hn : 1 ≤ n) (hb : 1 ≤ b.size) :
    ∀ c ∈ takeBlock o n b, 1 ≤ c.size := by
  intro c hc
  unfold takeBlock at hc
  split at hc
  next hlt =>
    simp only [List.mem_cons, List.not_mem_nil, or_false] at hc
    rcases hc with rfl | rfl
    · exact hn
    · show 1 ≤ b.size - n - o
      omega
  next =>
    simp only [List.mem_cons, List.not_mem_nil, or_false] at hc
    subst hc
    exact hb

/-- A taken block may stand anywhere; only free neighbours matter. -/
theorem coalesced_insert_taken {pre post : List Block} {t : Block} (ht : t.free = false) :
    Coalesced (pre ++ t :: post) ↔ Coalesced pre ∧ Coalesced post := by
  unfold Coalesced
  rw [List.isChain_append, List.isChain_cons]
  simp [ht]

theorem coalesced_takeBlock {n : Nat} {pre post : List Block} {b : Block} (hb : b.free = true)
    (h : Coalesced (pre ++ b :: post)) : Coalesced (pre ++ (takeBlock o n b ++ post)) := by
  have hpre : Coalesced pre := (List.isChain_append.mp h).1
  have hrest : Coalesced (b :: post) := (List.isChain_append.mp h).2.1
  have hpost : Coalesced post := (List.isChain_cons.mp hrest).2
  unfold takeBlock
  split
  next =>
    -- the free rest stands where `b` stood, so what follows it is taken
    have hrest' : Coalesced ((⟨b.size - n - o, true⟩ : Block) :: post) := by
      refine List.isChain_cons.mpr ⟨fun c hc => ?_, hpost⟩
      have := (List.isChain_cons.mp hrest).1 c hc
      simpa [hb] using this
    exact (coalesced_insert_taken rfl).mpr ⟨hpre, hrest'⟩
  next => exact (coalesced_insert_taken rfl).mpr ⟨hpre, hpost⟩

/-! ## Giving a block back -/

/-- Join `b`, given back, to a free block before it. -/
def mergePrev (o : Nat) (pre : List Block) (b : Block) : List Block × Block :=
  match pre.getLast? with
  | some a =>
    if a.free then (pre.dropLast, ⟨a.size + (b.size + o), true⟩) else (pre, ⟨b.size, true⟩)
  | none => (pre, ⟨b.size, true⟩)

/-- Join a free block after `b` to it. -/
def mergeNext (o : Nat) (b : Block) : List Block → Block × List Block
  | c :: post => if c.free then (⟨b.size + (c.size + o), true⟩, post) else (b, c :: post)
  | [] => (b, [])

/-- The tiling after the block between `pre` and `post` is given back. -/
def release (o : Nat) (pre : List Block) (b : Block) (post : List Block) : List Block :=
  (mergePrev o pre b).1 ++ (mergeNext o (mergePrev o pre b).2 post).1 ::
    (mergeNext o (mergePrev o pre b).2 post).2

theorem mergePrev_concat {pre : List Block} {a b : Block} (ha : a.free = true) :
    mergePrev o (pre ++ [a]) b = (pre, ⟨a.size + (b.size + o), true⟩) := by
  simp [mergePrev, ha]

theorem mergePrev_taken {pre : List Block} {b : Block}
    (h : ∀ a, pre.getLast? = some a → a.free = false) :
    mergePrev o pre b = (pre, ⟨b.size, true⟩) := by
  unfold mergePrev
  split
  next a ha => simp [h a ha]
  next => rfl

/-- Merging to the left: either nothing is joined, or the last block of the
prefix was free and is swallowed. -/
theorem mergePrev_cases (o : Nat) (pre : List Block) (b : Block) :
    ((∀ a, pre.getLast? = some a → a.free = false) ∧
      mergePrev o pre b = (pre, ⟨b.size, true⟩)) ∨
    ∃ pre' a, pre = pre' ++ [a] ∧ a.free = true ∧
      mergePrev o pre b = (pre', ⟨a.size + (b.size + o), true⟩) := by
  rcases List.eq_nil_or_concat pre with rfl | ⟨pre', a, rfl⟩
  · exact Or.inl ⟨by simp, rfl⟩
  · rw [List.concat_eq_append]
    cases ha : a.free with
    | true => exact Or.inr ⟨pre', a, rfl, ha, mergePrev_concat ha⟩
    | false =>
      have h : ∀ c, (pre' ++ [a]).getLast? = some c → c.free = false := by
        intro c hc
        simp only [List.getLast?_append, List.getLast?_singleton, Option.some_or,
          Option.some.injEq] at hc
        exact hc ▸ ha
      exact Or.inl ⟨h, mergePrev_taken h⟩

/-- Merging to the right: either what follows is taken or nothing, or the next
block was free and is swallowed. -/
theorem mergeNext_cases (o : Nat) (b : Block) (post : List Block) :
    ((∀ c, post.head? = some c → c.free = false) ∧ mergeNext o b post = (b, post)) ∨
    ∃ c post', post = c :: post' ∧ c.free = true ∧
      mergeNext o b post = (⟨b.size + (c.size + o), true⟩, post') := by
  cases post with
  | nil => exact Or.inl ⟨by simp, rfl⟩
  | cons c post' =>
    cases hc : c.free with
    | true => exact Or.inr ⟨c, post', rfl, hc, by simp [mergeNext, hc]⟩
    | false =>
      refine Or.inl ⟨fun d hd => ?_, by simp [mergeNext, hc]⟩
      simp only [List.head?_cons, Option.some.injEq] at hd
      exact hd ▸ hc

/-- Changing a block's mark moves no header. -/
theorem blockAt_mark {a x : Nat} {pre post : List Block} {b d : Block} {f : Bool}
    (h : BlockAt o a (pre ++ ⟨b.size, f⟩ :: post) x d) :
    ∃ d', BlockAt o a (pre ++ b :: post) x d' := by
  rcases blockAt_append.mp h with h | h
  · exact ⟨d, blockAt_append.mpr (Or.inl h)⟩
  · rcases blockAt_cons.mp h with ⟨hx, -⟩ | h
    · exact ⟨b, pre, post, rfl, hx⟩
    · exact ⟨d, blockAt_append.mpr (Or.inr (blockAt_cons.mpr (Or.inr h)))⟩

/-- Joining two neighbours makes no new header. -/
theorem blockAt_join {a x : Nat} {pre post : List Block} {b c d : Block} {f : Bool}
    (h : BlockAt o a (pre ++ ⟨b.size + (c.size + o), f⟩ :: post) x d) :
    ∃ d', BlockAt o a (pre ++ b :: c :: post) x d' := by
  rcases blockAt_append.mp h with h | h
  · exact ⟨d, blockAt_append.mpr (Or.inl h)⟩
  · rcases blockAt_cons.mp h with ⟨hx, -⟩ | h
    · exact ⟨b, pre, c :: post, rfl, hx⟩
    · refine ⟨d, blockAt_append.mpr (Or.inr (blockAt_cons.mpr (Or.inr (blockAt_cons.mpr (Or.inr ?_)))))⟩
      rwa [show a + span o pre + o + b.size + o + c.size =
        a + span o pre + o + (b.size + (c.size + o)) by omega]

theorem mergePrev_blockAt {a x : Nat} {pre post : List Block} {b d : Block}
    (h : BlockAt o a ((mergePrev o pre b).1 ++ (mergePrev o pre b).2 :: post) x d) :
    ∃ d', BlockAt o a (pre ++ b :: post) x d' := by
  rcases mergePrev_cases o pre b with ⟨-, hp⟩ | ⟨pre', c, rfl, -, hp⟩ <;> rw [hp] at h
  · exact blockAt_mark h
  · rw [List.append_assoc]
    exact blockAt_join h

theorem mergeNext_blockAt {a x : Nat} {pre post : List Block} {b d : Block}
    (h : BlockAt o a (pre ++ (mergeNext o b post).1 :: (mergeNext o b post).2) x d) :
    ∃ d', BlockAt o a (pre ++ b :: post) x d' := by
  rcases mergeNext_cases o b post with ⟨-, hn⟩ | ⟨c, post', rfl, -, hn⟩ <;> rw [hn] at h
  · exact ⟨d, h⟩
  · exact blockAt_join h

theorem mergePrev_free (pre : List Block) (b : Block) : (mergePrev o pre b).2.free = true := by
  rcases mergePrev_cases o pre b with ⟨-, h⟩ | ⟨pre', a, -, -, h⟩ <;> rw [h]

/-- A taken block, other than the one given back, stays where it is. -/
theorem release_keeps {a x : Nat} {pre post : List Block} {b c : Block}
    (h : BlockAt o a (pre ++ b :: post) x c) (hc : c.free = false) (hx : x ≠ a + span o pre) :
    BlockAt o a (release o pre b post) x c := by
  have hleft : BlockAt o a ((mergePrev o pre b).1 ++ (mergePrev o pre b).2 :: post) x c := by
    rcases mergePrev_cases o pre b with ⟨-, hp⟩ | ⟨pre', d, rfl, hd, hp⟩ <;> rw [hp]
    · refine BlockAt.replace [b] [⟨b.size, true⟩] h rfl fun hb => ?_
      rcases blockAt_cons.mp hb with ⟨hxb, -⟩ | hb
      · exact hx hxb
      · exact not_blockAt_nil hb
    · rw [List.append_assoc] at h
      refine BlockAt.replace [d, b] [⟨d.size + (b.size + o), true⟩] h
        (by simp only [span_cons, span_nil]; omega) fun hb => ?_
      simp only [blockAt_cons, not_blockAt_nil, or_false] at hb
      rcases hb with ⟨-, rfl⟩ | ⟨hxb, -⟩
      · rw [hd] at hc
        cases hc
      · rw [span_append, span_cons, span_nil] at hx
        omega
  unfold release
  rcases mergeNext_cases o (mergePrev o pre b).2 post with ⟨-, hn⟩ | ⟨d, post', rfl, hd, hn⟩ <;>
    rw [hn]
  · exact hleft
  · refine BlockAt.replace [(mergePrev o pre b).2, d]
      [⟨(mergePrev o pre b).2.size + (d.size + o), true⟩] hleft
      (by simp only [span_cons, span_nil]; omega) fun hb => ?_
    simp only [blockAt_cons, not_blockAt_nil, or_false] at hb
    rcases hb with ⟨-, rfl⟩ | ⟨-, rfl⟩
    · rw [mergePrev_free] at hc
      cases hc
    · rw [hd] at hc
      cases hc

theorem span_release (pre : List Block) (b : Block) (post : List Block) :
    span o (release o pre b post) = span o (pre ++ b :: post) := by
  unfold release
  rcases mergePrev_cases o pre b with ⟨-, hp⟩ | ⟨pre', a, rfl, -, hp⟩ <;> rw [hp] <;>
    rcases mergeNext_cases o _ post with ⟨-, hn⟩ | ⟨c, post', rfl, -, hn⟩ <;> rw [hn] <;>
    simp only [span_append, span_cons, span_nil] <;> omega

theorem release_pos {pre : List Block} {b : Block} {post : List Block}
    (h : ∀ c ∈ pre ++ b :: post, 1 ≤ c.size) : ∀ c ∈ release o pre b post, 1 ≤ c.size := by
  intro c hc
  have hb : 1 ≤ b.size := h b (by simp)
  have hpre : ∀ d ∈ pre, 1 ≤ d.size := fun d hd => h d (by simp [hd])
  have hpost : ∀ d ∈ post, 1 ≤ d.size := fun d hd => h d (by simp [hd])
  unfold release at hc
  rcases mergePrev_cases o pre b with ⟨-, hp⟩ | ⟨pre', a, rfl, -, hp⟩ <;> rw [hp] at hc <;>
    rcases mergeNext_cases o _ post with ⟨-, hn⟩ | ⟨d, post', rfl, -, hn⟩ <;> rw [hn] at hc <;>
    simp only [List.mem_append, List.mem_cons, List.not_mem_nil, or_false] at hc hpre hpost <;>
    rcases hc with hc | rfl | hc
  all_goals first
    | exact hpre c hc
    | exact hpost c hc
    | exact hpre c (Or.inl hc)
    | exact hpost c (Or.inr hc)
    | (simp only; omega)

/-- What is left of a coalesced prefix ends in a taken block, if in any. -/
theorem mergePrev_coalesced {pre : List Block} (b : Block) (h : Coalesced pre) :
    Coalesced (mergePrev o pre b).1 ∧
      ∀ a, (mergePrev o pre b).1.getLast? = some a → a.free = false := by
  rcases mergePrev_cases o pre b with ⟨hl, hp⟩ | ⟨pre', a, rfl, ha, hp⟩
  · rw [hp]
    exact ⟨h, hl⟩
  · rw [hp]
    refine ⟨(List.isChain_append.mp h).1, fun d hd => ?_⟩
    have := (List.isChain_append.mp h).2.2 d hd a (by simp)
    simpa [ha] using this

/-- What is left of a coalesced rest starts with a taken block, if with any. -/
theorem mergeNext_coalesced {post : List Block} (b : Block) (h : Coalesced post) :
    Coalesced (mergeNext o b post).2 ∧
      ∀ c, (mergeNext o b post).2.head? = some c → c.free = false := by
  rcases mergeNext_cases o b post with ⟨hr, hn⟩ | ⟨c, post', rfl, hc, hn⟩
  · rw [hn]
    exact ⟨h, hr⟩
  · rw [hn]
    refine ⟨(List.isChain_cons.mp h).2, fun d hd => ?_⟩
    have := (List.isChain_cons.mp h).1 d hd
    simpa [hc] using this

/-- A block that joined every free neighbour it had touches no free block. -/
theorem coalesced_release {pre : List Block} {b : Block} {post : List Block}
    (h : Coalesced (pre ++ b :: post)) : Coalesced (release o pre b post) := by
  have hpre : Coalesced pre := (List.isChain_append.mp h).1
  have hpost : Coalesced post := (List.isChain_cons.mp (List.isChain_append.mp h).2.1).2
  obtain ⟨hl, hlast⟩ := mergePrev_coalesced (o := o) b hpre
  obtain ⟨hr, hhead⟩ := mergeNext_coalesced (o := o) (mergePrev o pre b).2 hpost
  refine List.isChain_append.mpr ⟨hl, List.isChain_cons.mpr ⟨fun c hc => ?_, hr⟩, fun a ha c _ => ?_⟩
  · simp [hhead c hc]
  · simp [hlast a ha]

/-! ## The taken blocks determine a coalesced tiling -/

theorem blockAt_at {a : Nat} {b c : Block} {bs : List Block} (ho : 0 < o)
    (h : BlockAt o a (c :: bs) a b) : b = c := by
  rcases blockAt_cons.mp h with ⟨-, rfl⟩ | h
  · rfl
  · have := h.bounds
    omega

/-- Blocks that agree on the taken ones still do when a common first block is dropped. -/
theorem taken_tail {a : Nat} {b : Block} {bs cs : List Block} (ho : 0 < o)
    (h : ∀ x k, BlockAt o a (b :: bs) x ⟨k, false⟩ → BlockAt o a (b :: cs) x ⟨k, false⟩) :
    ∀ x k, BlockAt o (a + o + b.size) bs x ⟨k, false⟩ →
      BlockAt o (a + o + b.size) cs x ⟨k, false⟩ := by
  intro x k hx
  have hlow := hx.bounds
  rcases blockAt_cons.mp (h x k (blockAt_cons.mpr (Or.inr hx))) with ⟨hxa, -⟩ | h
  · omega
  · exact h

/-- A free first block reaches to the first taken block or to the end. -/
theorem free_head_le {a : Nat} {b c : Block} {bs cs : List Block}
    (hbs : Coalesced (b :: bs)) (hb : b.free = true)
    (hc : c.free = true) (hspan : span o (b :: bs) = span o (c :: cs))
    (h : ∀ x k, BlockAt o a (b :: bs) x ⟨k, false⟩ → BlockAt o a (c :: cs) x ⟨k, false⟩) :
    c.size ≤ b.size := by
  cases bs with
  | nil =>
    simp only [span_cons, span_nil] at hspan
    omega
  | cons d bs =>
    have hd : d.free = false := by
      have := (List.isChain_cons.mp hbs).1 d (by simp)
      simpa [hb] using this
    have hat : BlockAt o a (b :: d :: bs) (a + o + b.size) ⟨d.size, false⟩ := by
      rw [blockAt_cons, blockAt_cons]
      exact Or.inr (Or.inl ⟨rfl, by rw [← hd]⟩)
    rcases blockAt_cons.mp (h _ _ hat) with ⟨-, hcd⟩ | hin
    · rw [← hcd] at hc
      cases hc
    · have := hin.bounds
      omega

/-- Two coalesced tilings of one range with the same taken blocks are equal. -/
theorem coalesced_ext {bs cs : List Block} {a : Nat} (ho : 0 < o) (hbs : Coalesced bs)
    (hcs : Coalesced cs) (hspan : span o bs = span o cs)
    (h : ∀ x k, BlockAt o a bs x ⟨k, false⟩ ↔ BlockAt o a cs x ⟨k, false⟩) : bs = cs := by
  induction bs generalizing a cs with
  | nil =>
    cases cs with
    | nil => rfl
    | cons c cs =>
      simp only [span_nil, span_cons] at hspan
      omega
  | cons b bs ih =>
    cases cs with
    | nil =>
      simp only [span_nil, span_cons] at hspan
      omega
    | cons c cs =>
      have hhead : b = c := by
        cases hb : b.free with
        | false =>
          have hat := (h a b.size).mp (blockAt_cons.mpr (Or.inl ⟨rfl, by rw [← hb]⟩))
          rw [← blockAt_at ho hat, ← hb]
        | true =>
          cases hc : c.free with
          | false =>
            have hat := (h a c.size).mpr (blockAt_cons.mpr (Or.inl ⟨rfl, by rw [← hc]⟩))
            rw [← blockAt_at ho hat, ← hc]
          | true =>
            have hle := free_head_le hbs hb hc hspan fun x k => (h x k).mp
            have hge := free_head_le hcs hc hb hspan.symm fun x k => (h x k).mpr
            have hsize : b.size = c.size := by omega
            cases b
            cases c
            simp_all
      subst hhead
      have htail : bs = cs := by
        refine ih (a := a + o + b.size) (List.isChain_cons.mp hbs).2 (List.isChain_cons.mp hcs).2
          ?_ fun x k => ⟨?_, ?_⟩
        · simp only [span_cons] at hspan
          omega
        · exact taken_tail ho (fun x k => (h x k).mp) x k
        · exact taken_tail ho (fun x k => (h x k).mpr) x k
      rw [htail]

/-- The taken blocks after an allocation: those of before and the new one. -/
theorem taken_takeBlock {a n x k : Nat} {pre post : List Block} {b : Block} (hb : b.free = true) :
    BlockAt o a (pre ++ (takeBlock o n b ++ post)) x ⟨k, false⟩ ↔
      BlockAt o a (pre ++ b :: post) x ⟨k, false⟩ ∨
      (x = a + span o pre ∧ k = if n + o < b.size then n else b.size) := by
  have hne : (⟨k, false⟩ : Block) ≠ b := by
    intro h
    rw [← h] at hb
    cases hb
  unfold takeBlock
  split
  next hlt =>
    have hend : a + span o pre + o + n + o + (b.size - n - o) = a + span o pre + o + b.size := by
      omega
    simp only [List.cons_append, List.nil_append, blockAt_append, blockAt_cons, hend,
      Block.mk.injEq, hne, and_true, and_false, reduceCtorEq, false_or]
    tauto
  next =>
    simp only [List.cons_append, List.nil_append, blockAt_append, blockAt_cons, Block.mk.injEq,
      hne, and_true, and_false, false_or]
    tauto

/-- The taken blocks after a block is given back: those of before without it. -/
theorem taken_release {a x k : Nat} {pre post : List Block} {b : Block} (ho : 0 < o) :
    BlockAt o a (release o pre b post) x ⟨k, false⟩ ↔
      BlockAt o a (pre ++ b :: post) x ⟨k, false⟩ ∧ x ≠ a + span o pre := by
  constructor
  · intro h
    unfold release at h
    rcases mergePrev_cases o pre b with ⟨-, hp⟩ | ⟨pre', d, rfl, -, hp⟩ <;> rw [hp] at h <;>
      rcases mergeNext_cases o _ post with ⟨-, hn⟩ | ⟨c, post', rfl, -, hn⟩ <;> rw [hn] at h <;>
      simp only [blockAt_append, blockAt_cons, Block.mk.injEq, reduceCtorEq, and_false,
        false_or, not_blockAt_nil, or_false, span_append, span_cons, span_nil] at h ⊢
    all_goals
      rcases h with h | h
      · have hb := h.bounds
        exact ⟨by tauto, by omega⟩
      · have hb := h.bounds
        refine ⟨Or.inr (Or.inr ?_), by omega⟩
        first
          | exact h
          | (refine Or.inr ?_
             convert h using 1
             omega)
          | (convert h using 1
             omega)
  · rintro ⟨h, hx⟩
    exact release_keeps h rfl hx

end OS64.Lib.Tiling
