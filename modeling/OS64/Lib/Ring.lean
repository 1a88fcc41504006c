import Mathlib.Data.List.Cycle
import Mathlib.Data.List.Iterate

/-!
# Rings of linked nodes

A circular singly linked list: `f` is the link, and `Ring f l` says that from the
first node of `l` the links lead through `l` in order and back. Where the list starts
is of no account (`Ring.start_at`), a node goes in behind any other (`Ring.insert`),
and from every node the links visit each node once before they return (`Ring.visits`).
-/

namespace OS64.Lib

variable {α : Type*} {f g : α → α} {a p : α} {l : List α}

/-- The links `f` lead through the nodes of `l` in order and back to the first. -/
structure Ring (f : α → α) (l : List α) : Prop where
  nodup : l.Nodup
  chain : Cycle.Chain (fun x y => f x = y) (l : Cycle α)

theorem ring_cons : Ring f (a :: l) ↔
    (a :: l).Nodup ∧ List.IsChain (fun x y => f x = y) (a :: (l ++ [a])) :=
  ⟨fun h => ⟨h.nodup, (Cycle.chain_coe_cons _ a l).mp h.chain⟩,
    fun h => ⟨h.1, (Cycle.chain_coe_cons _ a l).mpr h.2⟩⟩

theorem ring_singleton (h : f a = a) : Ring f [a] :=
  ⟨List.nodup_singleton a, (Cycle.chain_singleton _ a).mpr h⟩

/-- A ring may be read from any of its nodes. -/
theorem Ring.start_at (h : Ring f l) (ha : a ∈ l) : ∃ l', (a :: l').Perm l ∧ Ring f (a :: l') := by
  obtain ⟨xs, ys, rfl⟩ := List.append_of_mem ha
  have hrot : (xs ++ a :: ys).rotate xs.length = a :: (ys ++ xs) := by
    rw [List.rotate_append_length_eq, List.cons_append]
  have hperm : (a :: (ys ++ xs)).Perm (xs ++ a :: ys) := hrot ▸ List.rotate_perm _ _
  have hcycle : ((a :: (ys ++ xs) : List α) : Cycle α) = (xs ++ a :: ys : List α) :=
    Cycle.coe_eq_coe.mpr (List.IsRotated.symm ⟨xs.length, hrot⟩)
  exact ⟨ys ++ xs, hperm, hperm.nodup_iff.mpr h.nodup, hcycle ▸ h.chain⟩

/-- A chain of links is an orbit. -/
theorem iterate_of_chain (h : List.IsChain (fun x y => f x = y) (a :: l)) :
    List.iterate f a (l.length + 1) = a :: l := by
  induction l generalizing a with
  | nil => rfl
  | cons b l ih =>
    obtain ⟨hab, hrest⟩ := List.isChain_cons_cons.mp h
    rw [List.length_cons, List.iterate, hab, ih hrest]

/-- From its first node the links lead through the list and back. -/
theorem Ring.orbit (h : Ring f (a :: l)) :
    List.iterate f a (l.length + 1) = a :: l ∧ f^[l.length + 1] a = a := by
  have hall := iterate_of_chain (ring_cons.mp h).2
  rw [List.length_append, List.length_singleton, List.iterate_add, ← List.cons_append] at hall
  obtain ⟨horbit, hback⟩ := List.append_inj hall (by simp)
  exact ⟨horbit, (List.cons.inj hback).1⟩

/-- From every node the links visit each node once and return. -/
theorem Ring.visits (h : Ring f l) (ha : a ∈ l) :
    (List.iterate f a l.length).Perm l ∧ f^[l.length] a = a := by
  obtain ⟨l', hperm, hring⟩ := h.start_at ha
  obtain ⟨horbit, hback⟩ := hring.orbit
  rw [← hperm.length_eq, List.length_cons, horbit]
  exact ⟨hperm, hback⟩

theorem Ring.next_mem (h : Ring f l) (ha : a ∈ l) : f a ∈ l := by
  obtain ⟨l', hperm, hring⟩ := h.start_at ha
  have hchain := (ring_cons.mp hring).2
  rw [← hperm.mem_iff]
  cases l' with
  | nil =>
    rw [List.nil_append] at hchain
    exact List.mem_singleton.mpr (List.isChain_cons_cons.mp hchain).1
  | cons b l' =>
    rw [(List.isChain_cons_cons.mp hchain).1]
    exact List.mem_cons_of_mem _ List.mem_cons_self

/-- A chain of links depends on the links of all nodes but the last. -/
theorem chain_congr {c : α} (h : List.IsChain (fun x y => f x = y) (l ++ [c]))
    (hfg : ∀ b ∈ l, g b = f b) : List.IsChain (fun x y => g x = y) (l ++ [c]) := by
  rw [List.isChain_iff_getElem] at h ⊢
  intro i hi
  rw [List.length_append, List.length_singleton] at hi
  rw [← h i (by rw [List.length_append, List.length_singleton]; omega)]
  apply hfg
  rw [List.getElem_append_left (by omega)]
  exact List.getElem_mem _

/-- Only the links of the nodes matter. -/
theorem Ring.congr (h : Ring f l) (hfg : ∀ b ∈ l, g b = f b) : Ring g l := by
  refine ⟨h.nodup, ?_⟩
  cases l with
  | nil => exact Cycle.Chain.nil _
  | cons a l =>
    exact (Cycle.chain_coe_cons _ a l).mpr (chain_congr (l := a :: l) (ring_cons.mp h).2 hfg)

/-- A node goes into the ring behind `p`. -/
theorem Ring.insert (h : Ring f l) (hp : p ∈ l) (ha : a ∉ l) (hpa : g p = a) (hap : g a = f p)
    (hothers : ∀ b ∈ l, b ≠ p → g b = f b) : ∃ l', l'.Perm (a :: l) ∧ Ring g l' := by
  obtain ⟨l', hperm, hring⟩ := h.start_at hp
  obtain ⟨hnodup, hchain⟩ := ring_cons.mp hring
  have hsub : ∀ b ∈ l', g b = f b := by
    intro b hb
    refine hothers b (hperm.mem_iff.mp (List.mem_cons_of_mem _ hb)) fun hbp => ?_
    rw [hbp] at hb
    exact (List.nodup_cons.mp hnodup).1 hb
  have ha' : a ∉ p :: l' := fun hmem => ha (hperm.mem_iff.mp hmem)
  refine ⟨p :: a :: l', (List.Perm.swap a p l').trans (hperm.cons a), ring_cons.mpr ⟨?_, ?_⟩⟩
  · rw [List.nodup_cons] at hnodup ⊢
    rw [List.mem_cons, not_or] at ha' ⊢
    exact ⟨⟨Ne.symm ha'.1, hnodup.1⟩, List.nodup_cons.mpr ⟨ha'.2, hnodup.2⟩⟩
  · -- behind `a` the chain goes on as it did behind `p`
    rw [List.cons_append, List.isChain_cons_cons]
    refine ⟨hpa, ?_⟩
    cases l' with
    | nil =>
      rw [List.nil_append] at hchain ⊢
      rw [List.isChain_cons_cons] at hchain ⊢
      exact ⟨hap.trans hchain.1, List.IsChain.singleton _⟩
    | cons b l' =>
      rw [List.cons_append, List.isChain_cons_cons] at hchain ⊢
      exact ⟨hap.trans hchain.1, chain_congr (l := b :: l') hchain.2 hsub⟩

end OS64.Lib
