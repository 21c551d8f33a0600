import Mathlib

/-!
# Free ids that a cursor finds

Ids below a size are given out by a cursor. It goes up from the id that was given out last to the
next free one, and where there is none it begins again at the least free id behind it that is
remembered, if one is.
-/

namespace Icm.Lib.FreeIds

open Finset

variable {free free' : Finset ℕ} {size size' curr minFree id : ℕ}

def lost (free : Finset ℕ) (curr minFree : ℕ) : Finset ℕ :=
  free.filter fun i => i ≤ curr ∧ i < minFree

theorem mem_lost {i : ℕ} : i ∈ lost free curr minFree ↔ i ∈ free ∧ i ≤ curr ∧ i < minFree :=
  mem_filter

structure Tracked (free : Finset ℕ) (size curr minFree : ℕ) : Prop where
  lt : ∀ i ∈ free, i < size
  le : minFree ≤ size
  remembered : minFree < size → minFree ∈ free ∧ minFree ≤ curr

section

variable (h : Tracked free size curr minFree)
include h

theorem Tracked.march (hlt : curr < id)
    (hnext : ∀ i ∈ free, curr < i → id ≤ i) :
    Tracked (free.erase id) size id minFree ∧
      lost (free.erase id) id minFree ⊆ lost free curr minFree := by
  refine ⟨⟨fun i hi => h.lt i (mem_of_mem_erase hi), h.le, fun hmin => ?_⟩, fun i hi => ?_⟩
  · obtain ⟨hmem, hle⟩ := h.remembered hmin
    exact ⟨mem_erase.mpr ⟨by omega, hmem⟩, by omega⟩
  · obtain ⟨hi, hle, hmin⟩ := mem_lost.mp hi
    obtain ⟨hne, hfree⟩ := mem_erase.mp hi
    refine mem_lost.mpr ⟨hfree, ?_, hmin⟩
    by_contra hgt
    have := hnext i hfree (by omega)
    omega

theorem Tracked.wrap (hnone : ∀ i ∈ free, i ≤ curr) :
    Tracked (free.erase minFree) size minFree size ∧
      lost (free.erase minFree) minFree size ⊆ lost free curr minFree := by
  refine ⟨⟨fun i hi => h.lt i (mem_of_mem_erase hi), le_rfl,
    fun h => absurd h (lt_irrefl _)⟩, fun i hi => ?_⟩
  obtain ⟨hi, hle, -⟩ := mem_lost.mp hi
  obtain ⟨hne, hfree⟩ := mem_erase.mp hi
  exact mem_lost.mpr ⟨hfree, hnone i hfree, by omega⟩

theorem Tracked.subset_lost (hmin : size ≤ minFree)
    (hnone : ∀ i ∈ free, i ≤ curr) : free ⊆ lost free curr minFree :=
  fun i hi => mem_lost.mpr ⟨hi, hnone i hi, (h.lt i hi).trans_le hmin⟩

theorem Tracked.push (hid : id < size) :
    Tracked (insert id free) size curr (if id < minFree ∧ id ≤ curr then id else minFree) ∧
      lost (insert id free) curr (if id < minFree ∧ id ≤ curr then id else minFree) ⊆
        lost free curr minFree := by
  have hlt : ∀ i ∈ insert id free, i < size := fun i hi => by
    rcases mem_insert.mp hi with rfl | hi
    · exact hid
    · exact h.lt i hi
  split_ifs with hless
  · refine ⟨⟨hlt, hid.le, fun _ => ⟨mem_insert_self _ _, hless.2⟩⟩, fun i hi => ?_⟩
    obtain ⟨hi, hle, hmin⟩ := mem_lost.mp hi
    exact mem_lost.mpr ⟨mem_of_mem_insert_of_ne hi hmin.ne, hle, hmin.trans hless.1⟩
  · refine ⟨⟨hlt, h.le, fun hmin => ?_⟩, fun i hi => ?_⟩
    · obtain ⟨hmem, hle⟩ := h.remembered hmin
      exact ⟨mem_insert_of_mem hmem, hle⟩
    · obtain ⟨hi, hle, hmin⟩ := mem_lost.mp hi
      refine mem_lost.mpr ⟨mem_of_mem_insert_of_ne hi ?_, hle, hmin⟩
      rintro rfl
      exact hless ⟨hmin, hle⟩

theorem Tracked.grow (hsize : size ≤ size')
    (hfree : ∀ i ∈ free', i ∈ free ∨ curr < i ∧ i < size') :
    Tracked free' size' curr size' ∧ lost free' curr size' ⊆ free := by
  refine ⟨⟨fun i hi => ?_, le_rfl, fun h => absurd h (lt_irrefl _)⟩, fun i hi => ?_⟩
  · rcases hfree i hi with hi | hi
    · exact (h.lt i hi).trans_le hsize
    · exact hi.2
  · obtain ⟨hi, hle, -⟩ := mem_lost.mp hi
    exact (hfree i hi).resolve_right fun h => absurd hle (not_le.mpr h.1)

end

end Icm.Lib.FreeIds
