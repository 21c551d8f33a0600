import Mathlib

/-!
# Tables that are written again and again

A table is a function to `Option`; a write replaces the entry at one key.
-/

namespace Icm.Lib

open List

variable {α β κ : Type*} {p q : α → Prop} {xs : List α} {x y : α}

theorem append_cons_inj {a : α} {xs ys us vs : List α} (hxs : a ∉ xs) (hus : a ∉ us)
    (h : xs ++ a :: ys = us ++ a :: vs) : xs = us ∧ ys = vs := by
  induction xs generalizing us with
  | nil =>
    cases us with
    | nil => exact ⟨rfl, tail_eq_of_cons_eq h⟩
    | cons u us =>
      obtain rfl : a = u := head_eq_of_cons_eq h
      exact absurd mem_cons_self hus
  | cons x xs ih =>
    cases us with
    | nil =>
      obtain rfl : x = a := head_eq_of_cons_eq h
      exact absurd mem_cons_self hxs
    | cons u us =>
      obtain rfl : x = u := head_eq_of_cons_eq h
      obtain ⟨rfl, hys⟩ := ih (fun ha => hxs (mem_cons_of_mem _ ha))
        (fun ha => hus (mem_cons_of_mem _ ha)) (tail_eq_of_cons_eq h)
      exact ⟨rfl, hys⟩

theorem append_cons_inj_last {a : α} {xs ys us vs : List α} (hys : a ∉ ys) (hvs : a ∉ vs)
    (h : xs ++ a :: ys = us ++ a :: vs) : xs = us ∧ ys = vs := by
  have hrev : ys.reverse ++ a :: xs.reverse = vs.reverse ++ a :: us.reverse := by
    simpa using congrArg reverse h
  obtain ⟨hys, hxs⟩ := append_cons_inj (by simpa using hys) (by simpa using hvs) hrev
  exact ⟨reverse_injective hxs, reverse_injective hys⟩

def LastWith (p : α → Prop) (xs : List α) (x : α) : Prop :=
  ∃ before after, xs = before ++ x :: after ∧ p x ∧ ∀ y ∈ after, ¬ p y

theorem not_lastWith_nil : ¬ LastWith p [] x := by
  rintro ⟨before, after, h, -⟩
  simp at h

theorem LastWith.holds (h : LastWith p xs x) : p x := by
  obtain ⟨before, after, -, hx, -⟩ := h
  exact hx

theorem LastWith.mem (h : LastWith p xs x) : x ∈ xs := by
  obtain ⟨before, after, rfl, -, -⟩ := h
  exact mem_append_right _ mem_cons_self

theorem lastWith_concat : LastWith p (xs ++ [x]) y ↔ p x ∧ y = x ∨ ¬ p x ∧ LastWith p xs y := by
  constructor
  · rintro ⟨before, after, h, hy, hafter⟩
    rcases eq_nil_or_concat after with rfl | ⟨after, z, rfl⟩
    · obtain ⟨-, hlast⟩ := append_inj' h rfl
      obtain rfl := singleton_inj.mp hlast
      exact Or.inl ⟨hy, rfl⟩
    · rw [concat_eq_append, ← cons_append, ← append_assoc] at h
      obtain ⟨hxs, hlast⟩ := append_inj' h rfl
      obtain rfl := singleton_inj.mp hlast
      rw [concat_eq_append] at hafter
      refine Or.inr ⟨hafter x (by simp), before, after, hxs, hy, fun z hz => hafter z ?_⟩
      exact mem_append_left _ hz
  · rintro (⟨hx, rfl⟩ | ⟨hx, before, after, rfl, hy, hafter⟩)
    · exact ⟨xs, [], rfl, hx, by simp⟩
    · refine ⟨before, after ++ [x], by simp, hy, fun z hz => ?_⟩
      rcases mem_append.mp hz with hz | hz
      · exact hafter z hz
      · rwa [mem_singleton.mp hz]

theorem LastWith.unique (hx : LastWith p xs x) (hy : LastWith p xs y) : x = y := by
  induction xs using reverseRecOn with
  | nil => exact absurd hx not_lastWith_nil
  | append_singleton xs z ih =>
    rcases lastWith_concat.mp hx with ⟨hz, rfl⟩ | ⟨hz, hx⟩
    · rcases lastWith_concat.mp hy with ⟨-, rfl⟩ | ⟨hz', -⟩
      · rfl
      · exact absurd hz hz'
    · rcases lastWith_concat.mp hy with ⟨hz', -⟩ | ⟨-, hy⟩
      · exact absurd hz' hz
      · exact ih hx hy

theorem exists_lastWith (hx : x ∈ xs) (hp : p x) : ∃ y, LastWith p xs y := by
  induction xs using reverseRecOn with
  | nil => exact absurd hx not_mem_nil
  | append_singleton xs z ih =>
    by_cases hz : p z
    · exact ⟨z, lastWith_concat.mpr (Or.inl ⟨hz, rfl⟩)⟩
    · rcases mem_append.mp hx with hx | hx
      · obtain ⟨y, hy⟩ := ih hx
        exact ⟨y, lastWith_concat.mpr (Or.inr ⟨hz, hy⟩)⟩
      · obtain rfl := mem_singleton.mp hx
        exact absurd hp hz

theorem LastWith.of_imp (h : LastWith q xs x) (hx : p x) (hpq : ∀ y, p y → q y) :
    LastWith p xs x := by
  obtain ⟨before, after, rfl, -, hafter⟩ := h
  exact ⟨before, after, rfl, hx, fun y hy hp => hafter y hy (hpq y hp)⟩

theorem foldl_update_eq_some_iff [DecidableEq κ] (key : α → κ) (val : α → β) (xs : List α) (k : κ)
    (v : β) :
    xs.foldl (fun t x => Function.update t (key x) (some (val x))) (fun _ => none) k = some v ↔
      ∃ x, LastWith (fun x => key x = k) xs x ∧ val x = v := by
  induction xs using reverseRecOn with
  | nil => simp [not_lastWith_nil]
  | append_singleton xs z ih =>
    rw [foldl_append, foldl_cons, foldl_nil]
    by_cases hz : key z = k
    · rw [← hz, Function.update_self]
      constructor
      · intro h
        exact ⟨z, lastWith_concat.mpr (Or.inl ⟨rfl, rfl⟩), Option.some.inj h⟩
      · rintro ⟨x, hx, rfl⟩
        rcases lastWith_concat.mp hx with ⟨-, rfl⟩ | ⟨hne, -⟩
        · rfl
        · exact absurd rfl hne
    · rw [Function.update_of_ne (Ne.symm hz), ih]
      simp only [lastWith_concat, hz, false_and, false_or, not_false_eq_true, true_and]

section Subscript

variable {κ β : Type} [DecidableEq κ]

def subscript (m : AList fun _ : κ => β) (k : κ) (d : β) : β × AList fun _ : κ => β :=
  match m.lookup k with
  | some v => (v, m)
  | none => (d, m.insert k d)

variable {m : AList fun _ : κ => β} {k k' : κ} {d : β}

theorem subscript_fst : (subscript m k d).1 = (m.lookup k).getD d := by
  rw [subscript]
  cases m.lookup k <;> rfl

theorem subscript_of_mem (h : k ∈ m) : (subscript m k d).2 = m := by
  obtain ⟨v, hv⟩ := Option.isSome_iff_exists.mp (AList.lookup_isSome.mpr h)
  rw [subscript, hv]

theorem mem_subscript : k' ∈ (subscript m k d).2 ↔ k' = k ∨ k' ∈ m := by
  rw [subscript]
  cases h : m.lookup k with
  | some v =>
    have hk : k ∈ m := AList.lookup_isSome.mp (by rw [h]; rfl)
    exact (or_iff_right_of_imp fun heq => heq ▸ hk).symm
  | none => exact AList.mem_insert m

theorem getD_lookup_subscript : ((subscript m k d).2.lookup k').getD d = (m.lookup k').getD d := by
  rw [subscript]
  cases h : m.lookup k with
  | some v => rfl
  | none =>
    by_cases hk : k' = k
    · rw [hk, AList.lookup_insert, h]
      rfl
    · rw [AList.lookup_insert_ne hk]

end Subscript

end Icm.Lib
