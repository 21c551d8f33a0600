import Mathlib

/-!
# Runs of a machine that may stop

A machine makes one step for each event, and a step may stop it: code evaluates assertions, and one
that fails is the error.
-/

namespace Icm.Lib

open List

variable {σ ε α : Type}

def require (a : α) (p : Prop) [Decidable p] : Except α Unit :=
  if p then .ok () else .error a

@[simp] theorem require_eq_ok {a : α} {p : Prop} [Decidable p] : require a p = .ok () ↔ p := by
  by_cases hp : p <;> simp [require, hp]

variable {a : α}

theorem require_bind {p : Prop} [Decidable p] {β : Type} (f : Unit → Except α β) :
    (require a p >>= f) = if p then f () else .error a := by
  by_cases hp : p <;> simp [require, hp, bind, Except.bind]

variable {β γ : Type} {f : β → Except α γ}

theorem bind_eq_ok {x : Except α β} {r : γ} :
    (x >>= f) = .ok r ↔ ∃ a, x = .ok a ∧ f a = .ok r := by
  cases x with
  | error a => simp [bind, Except.bind]
  | ok a => simp [bind, Except.bind]

theorem map_eq_ok {x : Except α β} {f : β → γ} {r : γ} :
    x.map f = .ok r ↔ ∃ a, x = .ok a ∧ f a = r := by
  cases x <;> simp [Except.map]

theorem require_ne_error {a b : α} {p : Prop} [Decidable p] (h : b ≠ a) :
    require b p ≠ .error a := by
  by_cases hp : p <;> simp [require, hp, h]

theorem bind_ne_error {x : Except α β}
    (hx : x ≠ .error a) (hf : ∀ r, x = .ok r → f r ≠ .error a) : (x >>= f) ≠ .error a := by
  cases x with
  | error b => simpa [bind, Except.bind] using hx
  | ok r => exact hf r rfl

theorem ok_ne_error {r : β} : (.ok r : Except α β) ≠ .error a := nofun

theorem bind_ok_ne_error {x : Except α β} {g : β → γ} (hx : x ≠ .error a) :
    (x >>= fun r => .ok (g r)) ≠ .error a :=
  bind_ne_error hx fun _ _ => ok_ne_error

def runSteps (step : σ → ε → Except α σ) : σ → List ε → Except α σ
  | s, [] => .ok s
  | s, e :: es =>
    match step s e with
    | .ok s' => runSteps step s' es
    | .error a => .error a

variable {step : σ → ε → Except α σ} {s s' : σ} {e : ε} {es : List ε}

theorem runSteps_cons_eq_ok :
    runSteps step s (e :: es) = .ok s' ↔
      ∃ s₁, step s e = .ok s₁ ∧ runSteps step s₁ es = .ok s' := by
  rw [runSteps]
  cases step s e <;> simp

theorem runSteps_append (step : σ → ε → Except α σ) (s : σ) (es es' : List ε) :
    runSteps step s (es ++ es') = runSteps step s es >>= fun s' => runSteps step s' es' := by
  induction es generalizing s with
  | nil => rfl
  | cons e es ih =>
    rw [cons_append, runSteps, runSteps]
    cases step s e with
    | error a => rfl
    | ok s' => exact ih s'

theorem runSteps_concat_eq_ok :
    runSteps step s (es ++ [e]) = .ok s' ↔
      ∃ s₁, runSteps step s es = .ok s₁ ∧ step s₁ e = .ok s' := by
  rw [runSteps_append, bind_eq_ok]
  refine exists_congr fun s₁ => and_congr_right fun _ => ?_
  rw [runSteps_cons_eq_ok]
  simp [runSteps]

def EachStep (step : σ → ε → Except α σ) (C : σ → ε → Prop) : σ → List ε → Prop
  | _, [] => True
  | s, e :: es => C s e ∧ ∀ s', step s e = .ok s' → EachStep step C s' es

variable {step : σ → ε → Except α σ} {C : σ → ε → Prop} {I : σ → Prop}

theorem eachStep_cons_of_ok (h : step s e = .ok s') :
    EachStep step C s (e :: es) ↔ C s e ∧ EachStep step C s' es := by
  simp [EachStep, h]

theorem eachStep_cons_of_error {s : σ} (h : step s e = .error a) :
    EachStep step C s (e :: es) ↔ C s e := by
  simp [EachStep, h]

theorem eachStep_true (s : σ) (es : List ε) : EachStep step (fun _ _ => True) s es := by
  induction es generalizing s with
  | nil => trivial
  | cons e es ih => exact ⟨trivial, fun s' _ => ih s'⟩

instance EachStep.decidable [∀ s e, Decidable (C s e)] :
    ∀ s es, Decidable (EachStep step C s es)
  | _, [] => .isTrue trivial
  | s, e :: es =>
    match h : step s e with
    | .ok s' =>
      have := EachStep.decidable s' es
      decidable_of_iff' _ (eachStep_cons_of_ok h)
    | .error _ => decidable_of_iff' _ (eachStep_cons_of_error h)

def SomeStep (step : σ → ε → Except α σ) (P : σ → ε → σ → Prop) : σ → List ε → Prop
  | _, [] => False
  | s, e :: es => ∃ s', step s e = .ok s' ∧ (P s e s' ∨ SomeStep step P s' es)

variable {P : σ → ε → σ → Prop}

theorem someStep_cons_of_ok
    (h : step s e = .ok s') :
    SomeStep step P s (e :: es) ↔ P s e s' ∨ SomeStep step P s' es := by
  simp [SomeStep, h]

theorem someStep_cons_of_error {s : σ}
    (h : step s e = .error a) : ¬ SomeStep step P s (e :: es) := by
  simp [SomeStep, h]

instance SomeStep.decidable {P : σ → ε → σ → Prop} [∀ s e s', Decidable (P s e s')] :
    ∀ s es, Decidable (SomeStep step P s es)
  | _, [] => .isFalse id
  | s, e :: es =>
    match h : step s e with
    | .ok s' =>
      have := SomeStep.decidable (P := P) s' es
      decidable_of_iff' _ (someStep_cons_of_ok h)
    | .error _ => .isFalse (someStep_cons_of_error h)

theorem runSteps_invariant
    (hstep : ∀ s e s', I s → C s e → step s e = .ok s' → I s') (hI : I s)
    (hC : EachStep step C s es) (hrun : runSteps step s es = .ok s') : I s' := by
  induction es generalizing s with
  | nil =>
    cases hrun
    exact hI
  | cons e es ih =>
    obtain ⟨s₁, hs, hrun⟩ := runSteps_cons_eq_ok.mp hrun
    exact ih (hstep s e s₁ hI hC.1 hs) (hC.2 s₁ hs) hrun

theorem eachStep_congr {C' : σ → ε → Prop}
    (h : ∀ s e s', step s e = .ok s' → (C s e ↔ C' s e))
    (hrun : runSteps step s es = .ok s') : EachStep step C s es ↔ EachStep step C' s es := by
  induction es generalizing s with
  | nil => exact Iff.rfl
  | cons e es ih =>
    obtain ⟨s₁, hs, hrun⟩ := runSteps_cons_eq_ok.mp hrun
    rw [eachStep_cons_of_ok hs, eachStep_cons_of_ok hs, h s e s₁ hs, ih hrun]

theorem exists_runSteps (hstep : ∀ s e, I s → C s e → ∃ s', step s e = .ok s' ∧ I s') {s : σ}
    (hI : I s) (hC : EachStep step C s es) :
    ∃ s', runSteps step s es = .ok s' ∧ I s' := by
  induction es generalizing s with
  | nil => exact ⟨s, rfl, hI⟩
  | cons e es ih =>
    obtain ⟨s₁, hs, hI₁⟩ := hstep s e hI hC.1
    obtain ⟨s', hrun, hI'⟩ := ih hI₁ (hC.2 s₁ hs)
    exact ⟨s', runSteps_cons_eq_ok.mpr ⟨s₁, hs, hrun⟩, hI'⟩

theorem EachStep.of_invariant {D : σ → ε → Prop}
    (hstep : ∀ s e s', I s → C s e → step s e = .ok s' → I s')
    (hD : ∀ s e, I s → C s e → D s e) {s : σ} (hI : I s)
    (hC : EachStep step C s es) : EachStep step D s es := by
  induction es generalizing s with
  | nil => trivial
  | cons e es ih => exact ⟨hD s e hI hC.1, fun s' hs => ih (hstep s e s' hI hC.1 hs) (hC.2 s' hs)⟩

theorem eachStep_of_forall_mem (h : ∀ e ∈ es, ∀ s, C s e) (s : σ) :
    EachStep step C s es := by
  induction es generalizing s with
  | nil => trivial
  | cons e es ih =>
    obtain ⟨he, hes⟩ := forall_mem_cons.mp h
    exact ⟨he s, fun s' _ => ih hes s'⟩

theorem runSteps_ne_error (hstep : ∀ s e s', I s → C s e → step s e = .ok s' → I s')
    (hne : ∀ s e, I s → C s e → step s e ≠ .error a) {s : σ} (hI : I s)
    (hC : EachStep step C s es) : runSteps step s es ≠ .error a := by
  induction es generalizing s with
  | nil => exact nofun
  | cons e es ih =>
    rw [runSteps]
    cases hs : step s e with
    | error b => exact fun h => hne s e hI hC.1 (hs.trans (congrArg _ (Except.error.inj h)))
    | ok s₁ => exact ih (hstep s e s₁ hI hC.1 hs) (hC.2 s₁ hs)

def Meets {β : Type} (E : α → Prop) (P : β → Prop) : Except α β → Prop
  | .ok r => P r
  | .error a => E a

variable {E : α → Prop}

theorem Meets.bind {P : β → Prop} {Q : γ → Prop} {x : Except α β}
    (hx : Meets E P x) (hf : ∀ r, P r → Meets E Q (f r)) :
    Meets E Q (x >>= f) := by
  cases x with
  | error a => exact hx
  | ok r => exact hf r hx

theorem Meets.mono {β : Type} {E E' : α → Prop} {P P' : β → Prop} {x : Except α β}
    (hx : Meets E P x) (hE : ∀ a, E a → E' a) (hP : ∀ r, P r → P' r) : Meets E' P' x := by
  cases x with
  | error a => exact hE a hx
  | ok r => exact hP r hx

theorem Meets.of_bind {Q : γ → Prop} {x : Except α β}
    (h : Meets E Q (x >>= f)) : Meets E (fun r => Meets E Q (f r)) x := by
  cases x with
  | error a => exact h
  | ok r => exact h

theorem Meets.combine {β : Type} {E E' : α → Prop} {P P' : β → Prop} {x : Except α β} {p : Prop}
    (h : Meets E P x) (h' : Meets E' P' x) (hE : ∀ a, E a → E' a → p)
    (hP : ∀ r, P r → P' r → p) : p := by
  cases x with
  | error a => exact hE a h h'
  | ok r => exact hP r h h'

theorem runSteps_meets (hstep : ∀ s e, I s → Meets E I (step s e)) {s : σ}
    (hI : I s) (es : List ε) : Meets E I (runSteps step s es) := by
  induction es generalizing s with
  | nil => exact hI
  | cons e es ih =>
    have hs := hstep s e hI
    rw [runSteps]
    cases h : step s e with
    | error a =>
      rw [h] at hs
      exact hs
    | ok s' =>
      rw [h] at hs
      exact ih hs

section Held

variable {β : Type} {held : σ → List β} {input : ε → List β}

theorem runSteps_length_held_le (hI : ∀ s e s', I s → step s e = .ok s' → I s')
    (hle : ∀ s e s', I s → step s e = .ok s' →
      (held s').length ≤ (held s).length + (input e).length)
    {s s' : σ} {es : List ε} (hs : I s) (hrun : runSteps step s es = .ok s') :
    (held s').length ≤ (held s).length + (es.flatMap input).length := by
  induction es generalizing s with
  | nil =>
    cases hrun
    simp
  | cons e es ih =>
    obtain ⟨s₁, hs₁, hrun⟩ := runSteps_cons_eq_ok.mp hrun
    have hrest := ih (hI s e s₁ hs hs₁) hrun
    have hfirst := hle s e s₁ hs hs₁
    rw [flatMap_cons, length_append]
    omega

theorem runSteps_held_iff (hI : ∀ s e s', I s → step s e = .ok s' → I s')
    (hkeep : ∀ s e s', I s → C s e → step s e = .ok s' → held s' = held s ++ input e)
    (hdrop : ∀ s e s', I s → ¬ C s e → step s e = .ok s' →
      (held s').length < (held s).length + (input e).length)
    {s s' : σ} {es : List ε} (hs : I s) (hrun : runSteps step s es = .ok s') :
    held s' = held s ++ es.flatMap input ↔ EachStep step C s es := by
  have hle (s : σ) (e : ε) (s' : σ) (hs : I s) (hstep : step s e = .ok s') :
      (held s').length ≤ (held s).length + (input e).length := by
    by_cases hC : C s e
    · rw [hkeep s e s' hs hC hstep, length_append]
    · exact (hdrop s e s' hs hC hstep).le
  induction es generalizing s with
  | nil =>
    cases hrun
    simp [EachStep]
  | cons e es ih =>
    obtain ⟨s₁, hs₁, hrun⟩ := runSteps_cons_eq_ok.mp hrun
    rw [eachStep_cons_of_ok hs₁, flatMap_cons, ← append_assoc]
    by_cases hC : C s e
    · rw [← hkeep s e s₁ hs hC hs₁]
      exact (ih (hI s e s₁ hs hs₁) hrun).trans (and_iff_right hC).symm
    · -- after a step that drops something the rest of the run cannot make up for it
      refine iff_of_false (fun heq => ?_) (fun h => hC h.1)
      have hlen := congrArg length heq
      have hrest := runSteps_length_held_le hI hle (hI s e s₁ hs hs₁) hrun
      have hlost := hdrop s e s₁ hs hC hs₁
      rw [length_append, length_append] at hlen
      omega

end Held

section SideBySide

variable {κ : Type} [DecidableEq κ]

def sideBySide (step : σ → ε → Except α σ) (s : κ → σ) (e : κ × ε) : Except α (κ → σ) :=
  (step (s e.1) e.2).map (Function.update s e.1)

def eventsOf (k : κ) (es : List (κ × ε)) : List ε :=
  es.filterMap fun e => if e.1 = k then some e.2 else none

theorem eventsOf_cons (k : κ) (e : κ × ε) (es : List (κ × ε)) :
    eventsOf k (e :: es) = if e.1 = k then e.2 :: eventsOf k es else eventsOf k es := by
  rw [eventsOf, filterMap_cons]
  split_ifs <;> rfl

theorem sideBySide_eq_ok {s s' : κ → σ} {e : κ × ε} :
    sideBySide step s e = .ok s' ↔
      ∃ t, step (s e.1) e.2 = .ok t ∧ s' = Function.update s e.1 t := by
  rw [sideBySide]
  cases step (s e.1) e.2 <;> simp [Except.map, eq_comm]

theorem runSteps_eventsOf {s s' : κ → σ} {es : List (κ × ε)}
    (hrun : runSteps (sideBySide step) s es = .ok s') (k : κ) :
    runSteps step (s k) (eventsOf k es) = .ok (s' k) := by
  induction es generalizing s with
  | nil =>
    cases hrun
    rfl
  | cons e es ih =>
    obtain ⟨s₁, hs, hrun⟩ := runSteps_cons_eq_ok.mp hrun
    obtain ⟨t, ht, rfl⟩ := sideBySide_eq_ok.mp hs
    have hrest := ih hrun
    rw [eventsOf_cons]
    split_ifs with hk
    · subst hk
      rw [Function.update_self] at hrest
      exact runSteps_cons_eq_ok.mpr ⟨t, ht, hrest⟩
    · rwa [Function.update_of_ne (Ne.symm hk)] at hrest

theorem exists_runSteps_sideBySide
    (hstep : ∀ s e, I s → C s e → ∃ s', step s e = .ok s' ∧ I s') {s : κ → σ} {es : List (κ × ε)}
    (hI : ∀ k, I (s k)) (hC : EachStep (sideBySide step) (fun s e => C (s e.1) e.2) s es) :
    ∃ s', runSteps (sideBySide step) s es = .ok s' ∧ ∀ k, I (s' k) := by
  refine exists_runSteps (I := fun s => ∀ k, I (s k)) (fun s e hI hC => ?_) hI hC
  obtain ⟨t, ht, hIt⟩ := hstep (s e.1) e.2 (hI e.1) hC
  refine ⟨Function.update s e.1 t, sideBySide_eq_ok.mpr ⟨t, ht, rfl⟩, fun k => ?_⟩
  by_cases hk : k = e.1
  · subst hk
    rwa [Function.update_self]
  · rw [Function.update_of_ne hk]
    exact hI k

end SideBySide

def total (f : σ → ε → σ) (s : σ) (e : ε) : Except Empty σ := .ok (f s e)

theorem runSteps_total (f : σ → ε → σ) (s : σ) (es : List ε) :
    runSteps (total f) s es = .ok (es.foldl f s) := by
  induction es generalizing s with
  | nil => rfl
  | cons e es ih => exact ih (f s e)

theorem foldl_invariant {f : σ → ε → σ} (hf : ∀ s e, I s → C s e → I (f s e)) {s : σ}
    (hI : I s) (hC : EachStep (total f) C s es) : I (es.foldl f s) := by
  refine runSteps_invariant (fun s e s' hI hC hs => ?_) hI hC (runSteps_total f s es)
  exact Except.ok.inj hs ▸ hf s e hI hC

theorem forall_steps_iff {τ : Type} {f : σ → ε → σ} {g : τ → ε → τ} {R : σ → τ → Prop}
    {Q : σ → τ → ε → Prop} (hQ : ∀ s t, ∀ e ∈ es, R s t → (Q s t e ↔ C s e))
    (hR : ∀ s t, ∀ e ∈ es, R s t → C s e → R (f s e) (g t e)) {s : σ} {t : τ} (h : R s t) :
    (∀ before e after, es = before ++ e :: after →
        Q (before.foldl f s) (before.foldl g t) e) ↔
      EachStep (total f) C s es := by
  induction es generalizing s t with
  | nil => simp [EachStep]
  | cons e es ih =>
    have ih {s : σ} {t : τ} (h : R s t) :=
      ih (fun s t e he => hQ s t e (mem_cons_of_mem _ he))
        (fun s t e he => hR s t e (mem_cons_of_mem _ he)) h
    have hQ := hQ s t e mem_cons_self h
    have hR := hR s t e mem_cons_self h
    rw [eachStep_cons_of_ok (show total f s e = .ok (f s e) from rfl)]
    constructor
    · intro hall
      have hC : C s e := hQ.mp (hall [] e es rfl)
      refine ⟨hC, (ih (hR hC)).mp fun before e' after heq => ?_⟩
      exact hall (e :: before) e' after (congrArg (e :: ·) heq)
    · rintro ⟨hC, hrest⟩ before e' after heq
      cases before with
      | nil =>
        obtain ⟨rfl, -⟩ := cons.inj heq
        exact hQ.mpr hC
      | cons b before =>
        obtain ⟨rfl, htail⟩ := cons.inj heq
        exact (ih (hR hC)).mpr hrest before e' after htail

end Icm.Lib
