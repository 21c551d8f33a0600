import Mathlib

/-!
# Doubly linked lists

Nodes with a link to the next node and one to the node before.
-/

namespace Icm.Lib

open List

structure Links (ν : Type) where
  next : ν → Option ν
  prev : ν → Option ν

namespace Links

variable {ν : Type} {l l' : Links ν} {before head tail : Option ν} {xs : List ν} {a b : ν}

def Chained (l : Links ν) : Option ν → List ν → Prop
  | _, [] => True
  | before, a :: rest => l.prev a = before ∧ l.next a = rest.head? ∧ l.Chained (some a) rest

theorem Chained.congr (h : l.Chained before xs)
    (heq : ∀ a ∈ xs, l'.prev a = l.prev a ∧ l'.next a = l.next a) : l'.Chained before xs := by
  induction xs generalizing before with
  | nil => trivial
  | cons a rest ih =>
    obtain ⟨⟨hprev, hnext⟩, hrest⟩ := forall_mem_cons.mp heq
    exact ⟨hprev.trans h.1, hnext.trans h.2.1, ih h.2.2 hrest⟩

theorem Chained.first_or_prev (h : l.Chained before xs) (ha : a ∈ xs) :
    xs.head? = some a ∨ ∃ c, l.prev a = some c := by
  induction xs generalizing before with
  | nil => cases ha
  | cons c rest ih =>
    obtain ⟨-, -, hrest⟩ := h
    rcases mem_cons.mp ha with rfl | ha
    · exact .inl rfl
    rcases ih hrest ha with hhead | hprev
    · cases rest with
      | nil => cases hhead
      | cons d rest =>
        obtain rfl : d = a := Option.some.inj hhead
        exact .inr ⟨c, hrest.1⟩
    · exact .inr hprev

structure IsList (l : Links ν) (head tail : Option ν) (xs : List ν) : Prop where
  chained : l.Chained none xs
  nodup : xs.Nodup
  head_eq : head = xs.head?
  tail_eq : tail = xs.getLast?

theorem isList_nil (l : Links ν) : l.IsList none none [] := ⟨trivial, nodup_nil, rfl, rfl⟩

theorem isList_singleton (hnext : l.next b = none) (hprev : l.prev b = none) :
    l.IsList (some b) (some b) [b] :=
  ⟨⟨hprev, hnext, trivial⟩, nodup_singleton b, rfl, rfl⟩

section

variable (h : l.IsList head tail xs)
include h

theorem IsList.congr
    (heq : ∀ a ∈ xs, l'.prev a = l.prev a ∧ l'.next a = l.next a) : l'.IsList head tail xs :=
  ⟨h.chained.congr heq, h.nodup, h.head_eq, h.tail_eq⟩

theorem IsList.tail_eq_none_iff : tail = none ↔ xs = [] := by
  rw [h.tail_eq, getLast?_eq_none_iff]

theorem IsList.not_mem (hprev : l.prev a = none)
    (hhead : head ≠ some a) : a ∉ xs := by
  intro ha
  rcases h.chained.first_or_prev ha with hfirst | ⟨c, hc⟩
  · exact hhead (h.head_eq.trans hfirst)
  · rw [hprev] at hc
    cases hc

end

variable [DecidableEq ν]

def setNext (l : Links ν) (a : ν) (b : Option ν) : Links ν :=
  { l with next := Function.update l.next a b }

def setPrev (l : Links ν) (a : ν) (b : Option ν) : Links ν :=
  { l with prev := Function.update l.prev a b }

@[simp] theorem setNext_prev (l : Links ν) (a : ν) (b : Option ν) :
    (l.setNext a b).prev = l.prev := rfl

@[simp] theorem setPrev_next (l : Links ν) (a : ν) (b : Option ν) :
    (l.setPrev a b).next = l.next := rfl

@[simp] theorem setNext_next_self (l : Links ν) (a : ν) (b : Option ν) :
    (l.setNext a b).next a = b := Function.update_self _ _ _

@[simp] theorem setPrev_prev_self (l : Links ν) (a : ν) (b : Option ν) :
    (l.setPrev a b).prev a = b := Function.update_self _ _ _

theorem setNext_next_of_ne {c : Option ν} (h : b ≠ a) : (l.setNext a c).next b = l.next b :=
  Function.update_of_ne h _ _

theorem setPrev_prev_of_ne {c : Option ν} (h : b ≠ a) : (l.setPrev a c).prev b = l.prev b :=
  Function.update_of_ne h _ _

theorem Chained.append (h : l.Chained before xs) (hlast : xs.getLast? = some a)
    (hnodup : xs.Nodup) (hb : b ∉ xs) (hnext : l.next b = none) :
    ((l.setNext a (some b)).setPrev b (some a)).Chained before (xs ++ [b]) := by
  induction xs generalizing before with
  | nil => cases hlast
  | cons c rest ih =>
    obtain ⟨hprev, hc, hrest⟩ := h
    obtain ⟨hbc, hb⟩ := ne_and_not_mem_of_not_mem_cons hb
    obtain ⟨hcrest, hnodup⟩ := nodup_cons.mp hnodup
    have hprevc : ((l.setNext a (some b)).setPrev b (some a)).prev c = before := by
      rw [setPrev_prev_of_ne hbc.symm, setNext_prev, hprev]
    cases rest with
    | nil =>
      obtain rfl : c = a := by simpa using hlast
      refine ⟨hprevc, by simp, by simp, ?_, trivial⟩
      rw [setPrev_next, setNext_next_of_ne hbc, hnext]
      rfl
    | cons d rest =>
      rw [getLast?_cons_cons] at hlast
      refine ⟨hprevc, ?_, ih hrest hlast hnodup hb⟩
      have hne : c ≠ a := by
        rintro rfl
        exact hcrest (mem_of_getLast? hlast)
      rw [setPrev_next, setNext_next_of_ne hne, hc]
      rfl

theorem IsList.append (h : l.IsList head (some a) xs) (hb : b ∉ xs) (hnext : l.next b = none) :
    ((l.setNext a (some b)).setPrev b (some a)).IsList head (some b) (xs ++ [b]) where
  chained := h.chained.append h.tail_eq.symm h.nodup hb hnext
  nodup := nodup_append_comm.mp (nodup_cons.mpr ⟨hb, h.nodup⟩)
  head_eq := by
    have hne : xs ≠ [] := by
      rintro rfl
      cases h.tail_eq
    rw [h.head_eq, head?_append_of_ne_nil _ hne]
  tail_eq := by simp

theorem IsList.popFirst (h : l.IsList head tail (a :: b :: xs)) :
    (((l.setPrev b none).setPrev a none).setNext a none).IsList (some b) tail (b :: xs) := by
  obtain ⟨-, -, -, hb, hrest⟩ := h.chained
  obtain ⟨ha, hnodup⟩ := nodup_cons.mp h.nodup
  obtain ⟨hab, hxs⟩ := ne_and_not_mem_of_not_mem_cons ha
  have hbxs := (nodup_cons.mp hnodup).1
  refine ⟨⟨?_, ?_, hrest.congr fun c hc => ?_⟩, hnodup, rfl, ?_⟩
  · rw [setNext_prev, setPrev_prev_of_ne hab.symm, setPrev_prev_self]
  · rw [setNext_next_of_ne hab.symm]
    exact hb
  · have hca : c ≠ a := by
      rintro rfl
      exact hxs hc
    have hcb : c ≠ b := by
      rintro rfl
      exact hbxs hc
    rw [setNext_prev, setPrev_prev_of_ne hca, setPrev_prev_of_ne hcb, setNext_next_of_ne hca]
    exact ⟨rfl, rfl⟩
  · rw [h.tail_eq, getLast?_cons_cons]

end Links

end Icm.Lib
