import OS64.Lib.Run
import Mathlib.Data.Set.Insert

/-!
# A pool of resources

What an allocator of indivisible units is for: units are taken from a set of
available ones and given back to it, and nothing else moves. `PoolInv` is what
that buys, for every run: nobody holds a unit twice, no held unit is available,
and the units in play are the ones the pool started with.
-/

namespace OS64.Lib

variable {α : Type}

/-- The available units, and the units taken and not yet given back. -/
structure Pool (α : Type) where
  avail : Set α
  held : List α

/-- Take an available unit, or give a held one back. -/
inductive PoolStep [DecidableEq α] : Pool α → Pool α → Prop
  | take (s : Pool α) (a : α) (h : a ∈ s.avail) : PoolStep s ⟨s.avail \ {a}, a :: s.held⟩
  | give (s : Pool α) (a : α) (h : a ∈ s.held) : PoolStep s ⟨insert a s.avail, s.held.erase a⟩

/-- What holds of a pool that started with the units `start`. -/
structure PoolInv (start : Set α) (s : Pool α) : Prop where
  distinct : s.held.Nodup
  held_unavail : ∀ a ∈ s.held, a ∉ s.avail
  units : ∀ a, a ∈ s.avail ∨ a ∈ s.held ↔ a ∈ start

theorem poolInv_start (start : Set α) : PoolInv start ⟨start, []⟩ where
  distinct := List.nodup_nil
  held_unavail := by simp
  units := by simp

/-- Each step keeps the invariant. -/
theorem poolStep_inv [DecidableEq α] {start : Set α} {s s' : Pool α} (h : PoolInv start s)
    (hstep : PoolStep s s') : PoolInv start s' := by
  cases hstep with
  | take a ha =>
    refine ⟨List.nodup_cons.mpr ⟨fun hh => h.held_unavail a hh ha, h.distinct⟩, ?_, ?_⟩
    · intro b hb hav
      rcases List.mem_cons.mp hb with hba | hb
      · exact hav.2 hba
      · exact h.held_unavail b hb hav.1
    · intro b
      have hu := h.units b
      by_cases hba : b = a
      · have hstart : b ∈ start := hu.mp (Or.inl (by rw [hba]; exact ha))
        simp [hba, hba ▸ hstart]
      · simpa [hba] using hu
  | give a ha =>
    refine ⟨h.distinct.erase a, ?_, ?_⟩
    · intro b hb hav
      obtain ⟨hba, hb⟩ := h.distinct.mem_erase_iff.mp hb
      exact h.held_unavail b hb (hav.resolve_left hba)
    · intro b
      have hu := h.units b
      by_cases hba : b = a
      · have hstart : b ∈ start := hu.mp (Or.inr (by rw [hba]; exact ha))
        simp [hba, hba ▸ hstart]
      · simpa [hba, h.distinct.mem_erase_iff] using hu

/-- So does every run. -/
theorem poolRun_inv [DecidableEq α] {start : Set α} {s s' : Pool α} (h : PoolInv start s)
    (hrun : Relation.ReflTransGen PoolStep s s') : PoolInv start s' :=
  run_invariant (PoolInv start) (fun _ _ h hstep => poolStep_inv h hstep) hrun h

end OS64.Lib
