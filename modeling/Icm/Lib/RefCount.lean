import Mathlib.Data.Multiset.Count
import Mathlib.Logic.Function.Basic

/-!
# Objects with a reference count

A store of objects that are deleted when their last reference goes.
-/

namespace Icm.Lib

open Multiset

structure RefStore (α : Type) where
  cell : ℕ → Option (ℕ × α)
  next : ℕ

namespace RefStore

variable {α : Type} (s : RefStore α) (p : ℕ) (a : α)

def empty : RefStore α := ⟨fun _ => none, 0⟩

def new : ℕ × RefStore α := (s.next, ⟨Function.update s.cell s.next (some (1, a)), s.next + 1⟩)

def get : Option α := (s.cell p).map Prod.snd

def set : Option (RefStore α) :=
  (s.cell p).map fun c => { s with cell := Function.update s.cell p (some (c.1, a)) }

def duplicate : Option (RefStore α) :=
  (s.cell p).map fun c => { s with cell := Function.update s.cell p (some (c.1 + 1, c.2)) }

def release : Option (RefStore α) :=
  (s.cell p).map fun c =>
    { s with cell := Function.update s.cell p (if c.1 - 1 = 0 then none else some (c.1 - 1, c.2)) }

structure Counts (s : RefStore α) (refs : Multiset ℕ) : Prop where
  count_eq : ∀ p, (s.cell p).map Prod.fst = if refs.count p = 0 then none else some (refs.count p)
  lt_next : ∀ p ∈ refs, p < s.next

namespace Counts

variable {s p a} {refs : Multiset ℕ}

theorem empty : Counts (empty : RefStore α) 0 where
  count_eq := by simp [RefStore.empty]
  lt_next := by simp

theorem exists_cell (h : s.Counts refs) (hp : p ∈ refs) :
    ∃ a, s.cell p = some (refs.count p, a) ∧ s.get p = some a := by
  have hcount := h.count_eq p
  rw [if_neg (count_pos.mpr hp).ne'] at hcount
  obtain ⟨⟨n, a⟩, hcell, rfl⟩ := Option.map_eq_some_iff.mp hcount
  exact ⟨a, hcell, by rw [get, hcell, Option.map_some]⟩

theorem new_notMem (h : s.Counts refs) : (s.new a).1 ∉ refs :=
  fun hmem => (h.lt_next _ hmem).false

theorem new (h : s.Counts refs) : (s.new a).2.Counts ((s.new a).1 ::ₘ refs) where
  count_eq q := by
    by_cases hq : q = s.next
    · subst hq
      have hnot : refs.count s.next = 0 := count_eq_zero.mpr (h.new_notMem (a := a))
      simp [RefStore.new, hnot]
    · simp [RefStore.new, hq, count_cons_of_ne, h.count_eq]
  lt_next q hq := by
    rcases mem_cons.mp hq with rfl | hq
    · exact Nat.lt_succ_self _
    · exact (h.lt_next q hq).trans (Nat.lt_succ_self _)

theorem get_new_self : (s.new a).2.get (s.new a).1 = some a := by
  simp [get, RefStore.new]

theorem get_new_of_mem (h : s.Counts refs) {q : ℕ} (hq : q ∈ refs) :
    (s.new a).2.get q = s.get q := by
  simp [get, RefStore.new, (h.lt_next q hq).ne]

theorem set (h : s.Counts refs) (hp : p ∈ refs) :
    ∃ s', s.set p a = some s' ∧ s'.Counts refs ∧ s'.get p = some a ∧
      ∀ q, q ≠ p → s'.get q = s.get q := by
  obtain ⟨b, hcell, -⟩ := h.exists_cell hp
  have heq : s.set p a =
      some { s with cell := Function.update s.cell p (some (refs.count p, a)) } := by
    rw [RefStore.set, hcell, Option.map_some]
  refine ⟨_, heq, ⟨fun q => ?_, h.lt_next⟩, ?_, ?_⟩
  · by_cases hq : q = p
    · subst hq
      simp [hp]
    · simp [hq, h.count_eq]
  · simp [get]
  · intro q hq
    simp [get, hq]

theorem duplicate (h : s.Counts refs) (hp : p ∈ refs) :
    ∃ s', s.duplicate p = some s' ∧ s'.Counts (p ::ₘ refs) ∧ ∀ q, s'.get q = s.get q := by
  obtain ⟨b, hcell, -⟩ := h.exists_cell hp
  have heq : s.duplicate p =
      some { s with cell := Function.update s.cell p (some (refs.count p + 1, b)) } := by
    rw [RefStore.duplicate, hcell, Option.map_some]
  refine ⟨_, heq, ⟨fun q => ?_, fun q hq => ?_⟩, ?_⟩
  · by_cases hq : q = p
    · subst hq
      simp
    · simp [hq, h.count_eq]
  · rcases mem_cons.mp hq with rfl | hq
    · exact h.lt_next _ hp
    · exact h.lt_next q hq
  · intro q
    by_cases hq : q = p
    · subst hq
      simp [get, hcell]
    · simp [get, hq]

theorem release (h : s.Counts (p ::ₘ refs)) :
    ∃ s', s.release p = some s' ∧ s'.Counts refs ∧ ∀ q ∈ refs, s'.get q = s.get q := by
  obtain ⟨b, hcell, -⟩ := h.exists_cell (mem_cons_self p refs)
  rw [count_cons_self] at hcell
  have heq : s.release p = some { s with
      cell := Function.update s.cell p
        (if refs.count p = 0 then none else some (refs.count p, b)) } := by
    rw [RefStore.release, hcell, Option.map_some, Nat.add_sub_cancel]
  refine ⟨_, heq, ⟨fun q => ?_, fun q hq => ?_⟩, ?_⟩
  · by_cases hq : q = p
    · subst hq
      dsimp only
      rw [Function.update_self]
      split_ifs <;> rfl
    · simp [hq, h.count_eq]
  · exact h.lt_next q (mem_cons_of_mem hq)
  · intro q hmem
    by_cases hq : q = p
    · subst hq
      simp [get, hcell, (count_pos.mpr hmem).ne']
    · simp [get, hq]

end Counts

end RefStore

end Icm.Lib
