import Mathlib.Order.CompletePartialOrder
import Mathlib.Data.Set.Lattice
import Mathlib.Order.Disjoint

/-!
# Exclusive ownership of a shared set

A set `B` of resources and a family `own` of parts of it, one for each owner.

* `Owns B own` — every part lies in `B` and no two parts meet. This is mutual exclusion.
* `Covers B own` — nothing of `B` is without an owner, so nothing leaks.

The two are kept apart: a system that may lose track of a resource still excludes. One rule
keeps both (`Owns.exchange`, `Covers.exchange`): owner `i` changes what it has, and outside of
what `i` had before and has after, `B` stays as it was. Taking free resources, giving some back
and clearing what nobody has are all of this form.
-/

namespace ChamberSpo

variable {ι α : Type*} {B B' : Set α} {own own' : ι → Set α}

/-- Every part lies in `B`, and the parts of different owners are disjoint. -/
structure Owns (B : Set α) (own : ι → Set α) : Prop where
  /-- what an owner has is in `B` -/
  sub : ∀ i, own i ⊆ B
  /-- no two owners share anything -/
  disj : ∀ i j, i ≠ j → Disjoint (own i) (own j)

/-- Everything in `B` has an owner. -/
def Covers (B : Set α) (own : ι → Set α) : Prop := ∀ x ∈ B, ∃ i, x ∈ own i

/-- With both, `B` is exactly the union of the parts. -/
theorem Owns.eq_iUnion (h : Owns B own) (hc : Covers B own) : B = ⋃ i, own i := by
  ext x
  rw [Set.mem_iUnion]
  exact ⟨hc x, fun ⟨i, hi⟩ => h.sub i hi⟩

/-- Nobody owns anything of the empty set. -/
theorem Owns.empty (h : ∀ i, own i = ∅) : Owns (∅ : Set α) own where
  sub i := by rw [h i]
  disj i j _ := by rw [h i]; exact Set.empty_disjoint _

theorem Covers.empty : Covers (∅ : Set α) own := fun _ hx => absurd hx (Set.notMem_empty _)

/-- What another owner has lies outside of `own i`. -/
theorem Owns.sub_sdiff (h : Owns B own) {i j : ι} (hij : j ≠ i) : own j ⊆ B \ own i :=
  Set.subset_sdiff.mpr ⟨h.sub j, h.disj j i hij⟩

/-- **Exchange**: owner `i` goes from `own i` to `own' i` and `B` follows; the others only keep
or give up what they had. -/
theorem Owns.exchange (h : Owns B own) (i : ι) (hB : B \ own i = B' \ own' i)
    (hi : own' i ⊆ B') (hj : ∀ j, j ≠ i → own' j ⊆ own j) : Owns B' own' := by
  -- what the others have lies in the part of `B` that stays
  have stays : ∀ j, j ≠ i → own' j ⊆ B' \ own' i := fun j hji =>
    (hj j hji).trans (hB ▸ h.sub_sdiff hji)
  refine ⟨?_, ?_⟩
  · intro j
    by_cases hji : j = i
    · exact hji ▸ hi
    · exact (stays j hji).trans Set.sdiff_subset
  · intro j k hjk
    by_cases hji : j = i
    · subst hji
      exact (Set.subset_sdiff.mp (stays k (Ne.symm hjk))).2.symm
    · by_cases hki : k = i
      · subst hki
        exact (Set.subset_sdiff.mp (stays j hji)).2
      · exact Set.disjoint_of_subset (hj j hji) (hj k hki) (h.disj j k hjk)

/-- Clearing what nobody has. -/
theorem Owns.shrink {S : Set α} (h : Owns B own) (hS : ∀ i, Disjoint (own i) S) :
    Owns (B \ S) own where
  sub i := Set.subset_sdiff.mpr ⟨h.sub i, hS i⟩
  disj := h.disj

/-- The exchange rule for `Covers`: the others keep what they had. -/
theorem Covers.exchange (hc : Covers B own) (i : ι) (hB : B \ own i = B' \ own' i)
    (hj : ∀ j, j ≠ i → own j ⊆ own' j) : Covers B' own' := by
  intro x hx
  by_cases hxi : x ∈ own' i
  · exact ⟨i, hxi⟩
  · obtain ⟨hxB, hxo⟩ : x ∈ B \ own i := hB ▸ ⟨hx, hxi⟩
    obtain ⟨j, hxj⟩ := hc x hxB
    have hji : j ≠ i := fun hji => hxo (hji ▸ hxj)
    exact ⟨j, hj j hji hxj⟩

/-- Owners may give up parts. -/
theorem Owns.mono (h : Owns B own) (hj : ∀ j, own' j ⊆ own j) : Owns B own' where
  sub j := (hj j).trans (h.sub j)
  disj j k hjk := Set.disjoint_of_subset (hj j) (hj k) (h.disj j k hjk)

end ChamberSpo
