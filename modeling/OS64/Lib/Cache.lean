import Mathlib.Logic.Function.Basic

/-!
# Caches of a partial map

A cache holds entries of a map. It may take up any entry of the map at any time, and gives one
back when it is told to drop it. Where the map changes under it, the cache is right as long as
the map keeps the entries it had (`Coherent.keeps`); an entry that is changed has to be dropped
after the change, and until then all the others are right (`CoherentOff`).
-/

namespace OS64.Lib

variable {K V : Type} {cur cur' cache cache' : K → Option V} {k₀ : K}

/-- What is in the cache is what the map has. -/
def Coherent (cur cache : K → Option V) : Prop := ∀ k v, cache k = some v → cur k = some v

/-- What is in the cache at another place than `k₀` is what the map has. -/
def CoherentOff (k₀ : K) (cur cache : K → Option V) : Prop :=
  ∀ k v, k ≠ k₀ → cache k = some v → cur k = some v

/-- Entries of the map are taken up. -/
def Fills (cur cache cache' : K → Option V) : Prop := ∀ k, cache' k = cache k ∨ cache' k = cur k

/-- The entry at `k₀` is dropped. -/
def dropped [DecidableEq K] (k₀ : K) (cache : K → Option V) : K → Option V := fun k =>
  if k = k₀ then none else cache k

/-- What a lookup finds: the cache first, then the map. -/
def through (cur cache : K → Option V) (k : K) : Option V := (cache k).orElse fun _ => cur k

theorem Fills.refl (cur cache : K → Option V) : Fills cur cache cache := fun _ => Or.inl rfl

theorem Coherent.off (h : Coherent cur cache) (k₀ : K) : CoherentOff k₀ cur cache :=
  fun k v _ hk => h k v hk

theorem CoherentOff.fills (h : CoherentOff k₀ cur cache) (hf : Fills cur cache cache') :
    CoherentOff k₀ cur cache' := by
  intro k v hne hk
  rcases hf k with hold | hnew
  · exact h k v hne (hold ▸ hk)
  · exact hnew ▸ hk

theorem Coherent.fills (h : Coherent cur cache) (hf : Fills cur cache cache') :
    Coherent cur cache' := by
  intro k v hk
  rcases hf k with hold | hnew
  · exact h k v (hold ▸ hk)
  · exact hnew ▸ hk

/-- The map has changed, but has what it had. -/
theorem Coherent.keeps (h : Coherent cur cache) (hk : ∀ k v, cur k = some v → cur' k = some v) :
    Coherent cur' cache := fun k v hv => hk k v (h k v hv)

theorem CoherentOff.keeps (h : CoherentOff k₀ cur cache)
    (hk : ∀ k v, k ≠ k₀ → cur k = some v → cur' k = some v) : CoherentOff k₀ cur' cache :=
  fun k v hne hv => hk k v hne (h k v hne hv)

/-- With the entry dropped all of them are right. -/
theorem CoherentOff.dropped [DecidableEq K] (h : CoherentOff k₀ cur cache) :
    Coherent cur (dropped k₀ cache) := by
  intro k v hk
  by_cases hne : k = k₀
  · rw [Lib.dropped, if_pos hne] at hk
    cases hk
  · rw [Lib.dropped, if_neg hne] at hk
    exact h k v hne hk

/-- Through a cache that is right a lookup finds what the map has. -/
theorem Coherent.through (h : Coherent cur cache) (k : K) : through cur cache k = cur k := by
  unfold Lib.through
  cases hk : cache k with
  | none => rfl
  | some v => exact (h k v hk).symm

end OS64.Lib
