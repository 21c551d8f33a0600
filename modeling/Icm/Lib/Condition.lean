import Mathlib

/-!
# Condition variables

Threads that wait for a condition variable, and threads that were woken and have not got the lock
yet.
-/

namespace Icm.Lib

/-- The threads that wait for a condition variable, and those that were woken and do not have the
lock yet, with what they need when they go on. -/
structure Condition (ω : Type) where
  waiting : List ω
  woken : List ω

namespace Condition

variable {ω : Type}

def new : Condition ω := ⟨[], []⟩

variable (c : Condition ω)

def wait (w : ω) : Condition ω := { c with waiting := c.waiting ++ [w] }

def signal (pick : ℕ) : Condition ω :=
  match c.waiting[pick % c.waiting.length]? with
  | none => c
  | some w => ⟨c.waiting.eraseIdx (pick % c.waiting.length), c.woken ++ [w]⟩

def resume (i : ℕ) : Option (ω × Condition ω) :=
  c.woken[i]?.map fun w => (w, { c with woken := c.woken.eraseIdx i })

def leave (i : ℕ) : Condition ω :=
  { c with waiting := c.waiting.eraseIdx i }

variable {c c' : Condition ω} {w : ω} {i : ℕ}

theorem signal_cases (c : Condition ω) (pick : ℕ) :
    c.waiting = [] ∧ c.signal pick = c ∨
      c.waiting.length = (c.signal pick).waiting.length + 1 ∧
        (c.signal pick).woken.length = c.woken.length + 1 := by
  rw [signal]
  rcases Nat.eq_zero_or_pos c.waiting.length with hzero | hpos
  · have hnil := List.eq_nil_of_length_eq_zero hzero
    rw [hnil]
    exact .inl ⟨rfl, rfl⟩
  · have hlt := Nat.mod_lt pick hpos
    rw [List.getElem?_eq_getElem hlt]
    refine .inr ⟨?_, by simp⟩
    dsimp only
    rw [List.length_eraseIdx_of_lt hlt]
    omega

theorem mem_woken_of_resume (h : c.resume i = some (w, c')) :
    w ∈ c.woken ∧ c'.waiting = c.waiting ∧ c.woken.length = c'.woken.length + 1 ∧
      c'.woken ⊆ c.woken := by
  obtain ⟨w', hw', heq⟩ := Option.map_eq_some_iff.mp h
  obtain ⟨rfl, rfl⟩ := Prod.mk.inj heq
  obtain ⟨hlt, rfl⟩ := List.getElem?_eq_some_iff.mp hw'
  refine ⟨List.getElem_mem hlt, rfl, ?_, (List.eraseIdx_sublist _ _).subset⟩
  dsimp only
  rw [List.length_eraseIdx_of_lt hlt]
  omega

theorem forall_mem_signal {P : ω → Prop} (h : ∀ w ∈ c.waiting ++ c.woken, P w) (pick : ℕ) :
    ∀ w ∈ (c.signal pick).waiting ++ (c.signal pick).woken, P w := by
  rw [signal]
  split
  · exact h
  · rename_i w hw
    rw [List.forall_mem_append] at h
    simp only [List.forall_mem_append, List.forall_mem_singleton]
    exact ⟨fun v hv => h.1 v ((List.eraseIdx_sublist _ _).subset hv), h.2,
      h.1 w (List.mem_of_getElem? hw)⟩

end Condition

end Icm.Lib
