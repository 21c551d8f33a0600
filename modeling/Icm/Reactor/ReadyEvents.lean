import Icm.Reactor.Registration
import Icm.Reactor.Round

/-!
# The upcalls for the ready events

A round in which the upcalls remove nothing but the event that they are for.
-/

namespace Icm.Reactor

open Icm.Lib Icm.Timer List HandleSet Dispatching Round

variable {η : Type}

namespace HandleSet

variable {s s' : HandleSet} {handle : ℤ}

section

variable (h : s.clrBit handle = .ok s')
include h

theorem eq_of_clrBit (hoff : s.has handle = false) : s' = s := by
  rcases clrBit_cases h with ⟨heq, -⟩ | ⟨hon, -⟩
  · exact heq
  · rw [hoff] at hon
    cases hon

theorem has_self_of_clrBit : s'.has handle = false := by
  simp [has_of_clrBit h]

theorem clrBit_again : s'.clrBit handle = .ok s' := by
  have hoff := has_self_of_clrBit h
  rw [clrBit] at h ⊢
  by_cases hinv : handle = -1
  · exact if_pos hinv
  · rw [if_neg hinv] at h ⊢
    obtain ⟨set, hset, -⟩ := bind_eq_ok.mp h
    have hset' : s'.isSet handle = .ok false :=
      isSet_eq_ok.mpr ⟨(isSet_eq_ok.mp hset).1, hoff⟩
    rw [hset']
    rfl

theorem handles_of_clrBit
    (hleast : ∀ g, s.has g = true → handle ≤ g) : s'.handles = s.handlesFrom (handle + 1) := by
  refine (pairwise_handles s').eq_of_mem_iff (pairwise_handlesFrom s _) fun g => ?_
  rw [mem_handles, mem_handlesFrom, has_of_clrBit h, Bool.and_eq_true, decide_eq_true_eq]
  refine and_congr_right fun hg => ?_
  have := hleast g hg
  omega

end

structure Short (s : HandleSet) : Prop where
  size : s.mSize < s.handles.length
  nonempty : ∃ g, s.has g = true
  max : s.mMaxHandle = -1 ∨ s.has s.mMaxHandle = true

theorem Short.clrBit (hs : s.Short) (hle : 0 ≤ handle ∧ handle ≤ s.mMaxHandle)
    (h : s.clrBit handle = .ok s') : s'.Short := by
  have hbits := has_of_clrBit h
  have hmax := hs.max.resolve_left (by omega)
  have hsize : s'.mSize < s'.handles.length := by
    rw [mSize_of_clrBit h, length_handles_of_clrBit h]
    have := hs.size
    split_ifs <;> omega
  rcases clrBit_cases h with ⟨rfl, -⟩ | ⟨hhas, ⟨hne, rfl⟩ | ⟨rfl, hset⟩⟩
  · exact hs
  · have hleft : (s.erase handle).has s.mMaxHandle = true := by
      rw [hbits, hmax, decide_eq_true hne.symm]
      rfl
    exact ⟨hsize, ⟨_, hleft⟩, .inr hleft⟩
  · have hsame := has_congr (setMax_spec hset).1
    by_cases hzero : (s.erase s.mMaxHandle).mSize = 0
    · -- handles are left that are not counted
      have hcount := mSize_of_setMax hset
      obtain ⟨g, hg⟩ := exists_mem_of_ne_nil s'.handles fun hnil => by
        rw [hnil, length_nil] at hsize
        omega
      exact ⟨hsize, ⟨g, mem_handles.mp hg⟩, .inl (max_of_setMax_of_eq_zero hset hzero)⟩
    · have hleft := (hsame _).trans (has_of_setMax_of_ne_zero hset hzero)
      exact ⟨hsize, ⟨_, hleft⟩, .inr hleft⟩

theorem short_of_sync {max : ℤ} (hmax : max ≤ 1024) (hbelow : ∀ g, s.has g = true → g < max)
    (h : s.sync max = .ok s') {i : ℕ} (hi : s.mMask.bit i = true) (hhigh : inLowHalf i = false) :
    s'.Short := by
  obtain ⟨c, -, hset⟩ := bind_eq_ok.mp h
  have hmask : s'.mMask = s.mMask := (setMax_spec hset).1
  refine ⟨?_, ⟨i, ?_⟩, ?_⟩
  · rw [mSize_of_sync hmax hbelow h, length_handles, hmask, Int.ofNat_lt]
    refine length_filter_lt_length_iff_exists.mpr ⟨i, BitWords.mem_elements.mpr hi, ?_⟩
    rw [hhigh]
    exact Bool.false_ne_true
  · rwa [has_natCast, hmask]
  · refine (setMax_spec hset).2.imp id fun hnew => ?_
    rw [has_congr hmask]
    exact hnew.1

end HandleSet

def Operation.InRange : Operation η → Prop
  | registerHandler handle _ _ => 0 ≤ handle ∧ handle < 1024
  | removeHandler _ _ => True

structure Operation.Spares (r₀ : SelectReactor η) (own : Option (EventType × ℤ))
    (op : Operation η) : Prop where
  inRange : op.InRange
  removes : ∀ e g, (r₀.dispatchSet.of e).has g = true → op.removes e g = true → own = some (e, g)

structure Upcall.Mild (r₀ : SelectReactor η) (own : EventType × ℤ) (u : Upcall η) : Prop where
  status : 0 ≤ u.status
  spares : ∀ op ∈ u.operations, op.Spares r₀ (some own)

namespace SelectReactorHandleSet

def Leaves (own : Option (EventType × ℤ)) (s s' : SelectReactorHandleSet) : Prop :=
  ∀ e, s'.of e = s.of e ∨ ∃ g, own = some (e, g) ∧ (s.of e).clrBit g = .ok (s'.of e)

variable {own : Option (EventType × ℤ)} {s s' s'' : SelectReactorHandleSet}

theorem Leaves.refl (own : Option (EventType × ℤ)) (s : SelectReactorHandleSet) : Leaves own s s :=
  fun _ => .inl rfl

theorem Leaves.trans (h : Leaves own s s') (h' : Leaves own s' s'') : Leaves own s s'' := by
  intro e
  rcases h e with heq | ⟨g, hown, hclr⟩
  · rw [← heq]
    exact h' e
  · refine .inr ⟨g, hown, ?_⟩
    rcases h' e with heq | ⟨g', hown', hclr'⟩
    · rwa [heq]
    · obtain ⟨-, rfl⟩ := Prod.mk.inj (Option.some.inj (hown.symm.trans hown'))
      rwa [eq_of_clrBit hclr' (has_self_of_clrBit hclr)]

theorem Leaves.eq_of_none (h : Leaves none s s') : s' = s := by
  have hof (e : EventType) : s'.of e = s.of e := (h e).resolve_right (by rintro ⟨g, ⟨⟩, -⟩)
  cases s
  cases s'
  rw [mk.injEq]
  exact ⟨hof .read, hof .write, hof .except⟩

theorem Leaves.of_ne {e e' : EventType} {g : ℤ} (h : Leaves (some (e, g)) s s') (hne : e' ≠ e) :
    s'.of e' = s.of e' := by
  refine (h e').resolve_right ?_
  rintro ⟨g', hown, -⟩
  exact hne (Prod.mk.inj (Option.some.inj hown)).1.symm

theorem Leaves.clrBit {e : EventType} {g : ℤ} {t : HandleSet} (h : Leaves (some (e, g)) s s')
    (hclr : (s'.of e).clrBit g = .ok t) : (s.of e).clrBit g = .ok t := by
  rcases h e with heq | ⟨g', hown, hclr'⟩
  · rwa [← heq]
  · cases hown
    rwa [eq_of_clrBit hclr (has_self_of_clrBit hclr')]

theorem Leaves.exists_clrBit (h : Leaves own s s')
    (hclr : ∀ e g, own = some (e, g) → ∃ t, (s.of e).clrBit g = .ok t) {e : EventType} {g : ℤ}
    (hown : own = some (e, g)) : ∃ t, (s'.of e).clrBit g = .ok t := by
  rcases h e with heq | ⟨g', hown', hclr'⟩
  · rw [heq]
    exact hclr e g hown
  · obtain ⟨-, rfl⟩ := Prod.mk.inj (Option.some.inj (hown.symm.trans hown'))
    exact ⟨_, clrBit_again hclr'⟩

end SelectReactorHandleSet

namespace SelectReactor

variable {r₀ r r' : SelectReactor η} {own : Option (EventType × ℤ)}

structure Serving (r₀ : SelectReactor η) (own : Option (EventType × ℤ)) (r : SelectReactor η) :
    Prop where
  sound : r.Sound
  known : ∀ e, (r.dispatchSet.of e).MaxKnown
  ready : ∀ e g, (r.dispatchSet.of e).has g = true → (r₀.dispatchSet.of e).has g = true
  waiting : ∀ e g, (r.dispatchSet.of e).has g = true → own ≠ some (e, g) →
    (r.waitSet.of e).has g = true ∧ r.find g = r₀.find g

theorem Serving.enter (hr : Serving r₀ none r) (own : Option (EventType × ℤ)) :
    Serving r₀ own r :=
  ⟨hr.sound, hr.known, hr.ready, fun e g hg _ => hr.waiting e g hg nofun⟩

theorem Serving.register {handle : ℤ} {eventHandler : η} {mask : ReactorMask}
    (hr : Serving r₀ own r) (h : r.bind handle eventHandler mask = .ok r') :
    Serving r₀ own r' ∧ r.dispatchSet.Leaves own r'.dispatchSet := by
  obtain ⟨hset, hfind, hwait, -⟩ := bind_spec h
  rw [hset]
  refine ⟨⟨hr.sound.bind h, by rw [hset]; exact hr.known, by rw [hset]; exact hr.ready,
    fun e g hg hne => ?_⟩, .refl _ _⟩
  rw [hset] at hg
  obtain ⟨hwaiting, hsame⟩ := hr.waiting e g hg hne
  obtain ⟨eh, heh⟩ := Option.isSome_iff_exists.mp (hr.sound.registered e g hwaiting).1
  refine ⟨(hwait e g).mpr (.inl hwaiting), ?_⟩
  rw [hfind, ← hsame, heh]
  rfl

theorem Serving.remove {handle : ℤ} {mask : ReactorMask} (hr : Serving r₀ own r)
    (hop : (Operation.removeHandler handle mask).Spares r₀ own)
    (h : r.unbind handle mask = .ok r') :
    Serving r₀ own r' ∧ r.dispatchSet.Leaves own r'.dispatchSet := by
  rcases unbind_spec h with ⟨-, rfl⟩ | ⟨hsome, -, hnarrow, hwait, hfind⟩
  · exact ⟨hr, .refl _ _⟩
  refine ⟨⟨hr.sound.unbind h, fun e => ((hnarrow e).maxKnown (hr.known e)).1, fun e g hg => ?_,
    fun e g hg hne => ?_⟩, fun e => ?_⟩
  · exact hr.ready e g (((hnarrow e).has_iff g).mp hg).1
  · have hold := (((hnarrow e).has_iff g).mp hg).1
    obtain ⟨hwaiting, hsame⟩ := hr.waiting e g hold hne
    have hstill : (r'.waitSet.of e).has g = true := by
      refine (hwait e g).mpr ⟨hwaiting, ?_⟩
      rintro ⟨hcov, rfl⟩
      exact hne (hop.removes e g (hr.ready e g hold) (by simp [Operation.removes, hcov]))
    refine ⟨hstill, ?_⟩
    rcases hfind g with heq | ⟨rfl, -, hnone⟩
    · rw [heq, hsame]
    · rw [hnone e] at hstill
      cases hstill
  · have hset := dispatchSet_of_unbind h hsome e
    cases hcleared : e.clearedBy mask with
    | false =>
      rw [hcleared] at hset
      exact .inl (Except.ok.inj hset).symm
    | true =>
      rw [hcleared] at hset
      by_cases hhas : (r.dispatchSet.of e).has handle = true
      · refine .inr ⟨handle, hop.removes e handle (hr.ready e handle hhas) ?_, hset⟩
        simp [Operation.removes, EventType.coveredBy_of_clearedBy hcleared]
      · exact .inl (eq_of_clrBit hset (Bool.eq_false_of_not_eq_true hhas))

theorem Serving.apply {op : Operation η} (hr : Serving r₀ own r) (hop : op.Spares r₀ own)
    (h : r.apply op = .ok r') :
    Serving r₀ own r' ∧ r.dispatchSet.Leaves own r'.dispatchSet := by
  cases op with
  | registerHandler handle eventHandler mask => exact hr.register h
  | removeHandler handle mask => exact hr.remove hop h

theorem Serving.exists_apply {op : Operation η} (hr : Serving r₀ own r) (hop : op.Spares r₀ own)
    (hclr : ∀ e g, own = some (e, g) → ∃ s, (r.dispatchSet.of e).clrBit g = .ok s) :
    ∃ r', r.apply op = .ok r' := by
  cases op with
  | registerHandler handle eventHandler mask => exact exists_bind hr.sound.wait hop.inRange _ _
  | removeHandler handle mask =>
    refine exists_unbind hr.sound.wait (hr.sound.range handle) fun hsome e hcleared => ?_
    by_cases hhas : (r.dispatchSet.of e).has handle = true
    · refine hclr e handle (hop.removes e handle (hr.ready e handle hhas) ?_)
      simp [Operation.removes, EventType.coveredBy_of_clearedBy hcleared]
    · have hset : (r.dispatchSet.of e).isSet handle = .ok false :=
        isSet_eq_ok.mpr ⟨hr.sound.range handle hsome, Bool.eq_false_of_not_eq_true hhas⟩
      have := hr.sound.range handle hsome
      rw [clrBit, if_neg (by omega), hset]
      exact ⟨_, rfl⟩

end SelectReactor

def MildTurns (upcalls : ℕ → Upcall η) (r₀ : SelectReactor η) (turns : List (Turn η)) : Prop :=
  ∀ k t, turns[k]? = some t → (upcalls k).Mild r₀ (t.event, t.handle)

section

variable {upcalls : ℕ → Upcall η} {r₀ : SelectReactor η} {turns turns' : List (Turn η)}

theorem MildTurns.of_prefix (h : MildTurns upcalls r₀ turns) (hle : turns' <+: turns) :
    MildTurns upcalls r₀ turns' := by
  obtain ⟨rest, rfl⟩ := hle
  intro k t ht
  refine h k t ?_
  rw [List.getElem?_append_left (List.getElem?_eq_some_iff.mp ht).1, ht]

theorem MildTurns.last {t : Turn η} (h : MildTurns upcalls r₀ (turns ++ [t])) :
    (upcalls turns.length).Mild r₀ (t.event, t.handle) :=
  h turns.length t getElem?_concat_length

end

namespace Round

variable {ρ : Round η} {turns : List (Turn η)}

theorem prefix_of_ioLoop {upcalls : ℕ → Upcall η} {numActiveHandles : ℤ} {e : EventType} {t n : ℕ}
    {it : HandleSetIterator}
    (h : Meets (fun ρ' => ρ'.turns <+: turns) (fun p => p.2.turns <+: turns)
      (ioLoop upcalls numActiveHandles e t it n ρ)) : ρ.turns <+: turns := by
  induction t generalizing it n ρ with
  | zero => exact h
  | succ t ih =>
    rw [ioLoop] at h
    dsimp only at h
    split_ifs at h
    · have henter : (ρ.enter (it.next (ρ.reactor.dispatchSet.of e)).1 e).turns <+: turns := by
        refine h.of_bind.combine (notifyHandle_turns _ _ _ _) (fun ρ₁ h₁ heq => heq ▸ h₁)
          fun ρ₁ h₁ heq => heq ▸ ?_
        refine h₁.of_bind.combine (clearDispatchMask_turns _ _ _) (fun ρ₂ h₂ heq => heq ▸ h₂)
          fun ρ₂ h₂ heq => heq ▸ ?_
        exact ih h₂
      exact (prefix_append _ _).trans henter
    · exact h

theorem prefix_of_ioLoop_eq_ok {upcalls : ℕ → Upcall η} {numActiveHandles : ℤ} {e : EventType}
    {t n n' : ℕ} {it : HandleSetIterator} {ρ' : Round η}
    (h : ioLoop upcalls numActiveHandles e t it n ρ = .ok (n', ρ')) : ρ.turns <+: ρ'.turns :=
  prefix_of_ioLoop (by rw [h]; exact prefix_rfl)

end Round

namespace SelectReactor

variable {r₀ : SelectReactor η} {own : Option (EventType × ℤ)} {ρ ρ' ρ₁ : Round η} {e : EventType}
  {handle : ℤ} {u : Upcall η}

theorem Serving.perform {ops : List (Operation η)} (hρ : Serving r₀ own ρ.reactor)
    (hops : ∀ op ∈ ops, op.Spares r₀ own) (h : ρ.perform ops = .ok ρ') :
    Serving r₀ own ρ'.reactor ∧ ρ.reactor.dispatchSet.Leaves own ρ'.reactor.dispatchSet := by
  refine runSteps_invariant (C := fun _ op => op.Spares r₀ own)
    (I := fun ρ₁ : Round η => Serving r₀ own ρ₁.reactor ∧
      ρ.reactor.dispatchSet.Leaves own ρ₁.reactor.dispatchSet)
    (fun ρ₁ op ρ₂ h₁ hop hs => ?_) ⟨hρ, .refl _ _⟩
    (eachStep_of_forall_mem (fun op hop _ => hops op hop) ρ) h
  obtain ⟨hserving, hleaves⟩ := h₁.1.apply hop (apply_eq_ok hs).1
  exact ⟨hserving, h₁.2.trans hleaves⟩

theorem Serving.exists_perform {ops : List (Operation η)} (hρ : Serving r₀ own ρ.reactor)
    (hops : ∀ op ∈ ops, op.Spares r₀ own)
    (hclr : ∀ e g, own = some (e, g) → ∃ s, (ρ.reactor.dispatchSet.of e).clrBit g = .ok s) :
    ∃ ρ', ρ.perform ops = .ok ρ' := by
  have hstep (ρ₁ : Round η) (op : Operation η) (h₁ : Serving r₀ own ρ₁.reactor ∧
      ∀ e g, own = some (e, g) → ∃ s, (ρ₁.reactor.dispatchSet.of e).clrBit g = .ok s)
      (hop : op.Spares r₀ own) : ∃ ρ₂, ρ₁.apply op = .ok ρ₂ ∧ Serving r₀ own ρ₂.reactor ∧
        ∀ e g, own = some (e, g) → ∃ s, (ρ₂.reactor.dispatchSet.of e).clrBit g = .ok s := by
    obtain ⟨ρ₂, hρ₂⟩ : ∃ ρ₂, ρ₁.apply op = .ok ρ₂ := by
      obtain ⟨r', hr'⟩ := h₁.1.exists_apply hop h₁.2
      rw [Round.apply, hr']
      exact ⟨_, rfl⟩
    obtain ⟨hserving, hleaves⟩ := h₁.1.apply hop (apply_eq_ok hρ₂).1
    exact ⟨ρ₂, hρ₂, hserving, fun e g => hleaves.exists_clrBit h₁.2⟩
  obtain ⟨ρ', h, -⟩ := exists_runSteps (s := ρ)
    (C := fun (_ : Round η) (op : Operation η) => op.Spares r₀ own) hstep (And.intro hρ hclr)
    (eachStep_of_forall_mem (fun op hop _ => hops op hop) ρ)
  exact ⟨ρ', h⟩

theorem Serving.notify (hρ : Serving r₀ none ρ.reactor) (hu : u.Mild r₀ (e, handle))
    (h : ρ.notifyHandle handle e u = .ok ρ') :
    Serving r₀ (some (e, handle)) ρ'.reactor ∧
      ρ.reactor.dispatchSet.Leaves (some (e, handle)) ρ'.reactor.dispatchSet := by
  rw [notifyHandle] at h
  split at h
  · cases h
    exact ⟨hρ.enter _, .refl _ _⟩
  · obtain ⟨ρ₁, hperform, h⟩ := bind_eq_ok.mp h
    rw [if_neg (Int.not_lt.mpr hu.status)] at h
    cases h
    exact (hρ.enter _).perform hu.spares hperform

theorem clearedBy_mask (e e' : EventType) : e'.clearedBy e.mask = decide (e' = e) := by
  cases e <;> cases e' <;> decide

theorem Serving.clear (hρ : Serving r₀ (some (e, handle)) ρ.reactor)
    (h : ρ.clearDispatchMask handle e.mask = .ok ρ') :
    Serving r₀ none ρ'.reactor ∧
      (ρ.reactor.dispatchSet.of e).clrBit handle = .ok (ρ'.reactor.dispatchSet.of e) ∧
      ∀ e', e' ≠ e → ρ'.reactor.dispatchSet.of e' = ρ.reactor.dispatchSet.of e' := by
  obtain ⟨hclear, -, -⟩ := clearDispatchMask_eq_ok h
  have hsets := dispatchSet_of_clearDispatchMask hclear
  obtain ⟨heq, hnarrow⟩ := clearDispatchMask_spec hclear
  have hwait : ρ'.reactor.waitSet = ρ.reactor.waitSet := by rw [heq]
  have hfind (g : ℤ) : ρ'.reactor.find g = ρ.reactor.find g := by rw [heq]; rfl
  have hsound : ρ'.reactor.Sound :=
    hρ.sound.live (h := .dispatch ρ'.reactor.dispatchSet true) (by rw [heq]; rfl)
  refine ⟨⟨hsound, fun e' => ((hnarrow e').maxKnown (hρ.known e')).1, fun e' g hg => ?_,
    fun e' g hg _ => ?_⟩, ?_, fun e' hne => ?_⟩
  · exact hρ.ready e' g (((hnarrow e').has_iff g).mp hg).1
  · obtain ⟨hold, hnot⟩ := ((hnarrow e').has_iff g).mp hg
    rw [hwait, hfind]
    refine hρ.waiting e' g hold fun hown => hnot ?_
    cases hown
    exact ⟨by rw [clearedBy_mask, decide_eq_true rfl], rfl⟩
  · have := hsets e
    rwa [clearedBy_mask, decide_eq_true rfl] at this
  · have := hsets e'
    rw [clearedBy_mask, decide_eq_false hne] at this
    exact (Except.ok.inj this).symm

theorem Serving.turn (hρ : Serving r₀ none ρ.reactor) (hu : u.Mild r₀ (e, handle))
    (hnotify : (ρ.enter handle e).notifyHandle handle e u = .ok ρ₁)
    (hclear : ρ₁.clearDispatchMask handle e.mask = .ok ρ') :
    Serving r₀ none ρ'.reactor ∧
      (ρ.reactor.dispatchSet.of e).clrBit handle = .ok (ρ'.reactor.dispatchSet.of e) ∧
      ∀ e', e' ≠ e → ρ'.reactor.dispatchSet.of e' = ρ.reactor.dispatchSet.of e' := by
  obtain ⟨hρ₁, hleaves⟩ := Serving.notify (ρ := ρ.enter handle e) hρ hu hnotify
  obtain ⟨hρ', hclr, hothers⟩ := hρ₁.clear hclear
  exact ⟨hρ', hleaves.clrBit hclr, fun e' hne => (hothers e' hne).trans (hleaves.of_ne hne)⟩

theorem turns_of_turn (hnotify : (ρ.enter handle e).notifyHandle handle e u = .ok ρ₁)
    (hclear : ρ₁.clearDispatchMask handle e.mask = .ok ρ') :
    ρ'.turns = ρ.turns ++ [⟨ρ.reactor, ρ.done, handle, e⟩] := by
  have hone := notifyHandle_turns (ρ.enter handle e) handle e u
  rw [hnotify] at hone
  exact (clearDispatchMask_eq_ok hclear).2.2.trans hone

theorem Serving.exists_turn (hρ : Serving r₀ none ρ.reactor) (hu : u.Mild r₀ (e, handle))
    {s : HandleSet} (hclr : (ρ.reactor.dispatchSet.of e).clrBit handle = .ok s) :
    ∃ ρ₁ ρ₂, (ρ.enter handle e).notifyHandle handle e u = .ok ρ₁ ∧
      ρ₁.clearDispatchMask handle e.mask = .ok ρ₂ := by
  have hown (e' : EventType) (g : ℤ) (h : some (e, handle) = some (e', g)) :
      ∃ s, (ρ.reactor.dispatchSet.of e').clrBit g = .ok s := by
    cases h
    exact ⟨s, hclr⟩
  obtain ⟨ρ₁, hnotify⟩ : ∃ ρ₁, (ρ.enter handle e).notifyHandle handle e u = .ok ρ₁ := by
    rw [notifyHandle]
    split
    · exact ⟨_, rfl⟩
    · obtain ⟨ρ₁, hperform⟩ :=
        Serving.exists_perform (ρ := ρ.enter handle e) (hρ.enter _) hu.spares hown
      refine ⟨ρ₁, bind_eq_ok.mpr ⟨ρ₁, hperform, ?_⟩⟩
      exact if_neg (Int.not_lt.mpr hu.status)
  have hleaves := (Serving.notify (ρ := ρ.enter handle e) hρ hu hnotify).2
  obtain ⟨r', hr'⟩ : ∃ r', ρ₁.reactor.clearDispatchMask handle e.mask = .ok r' :=
    exists_clearDispatchMask fun e' hcleared => by
      rw [clearedBy_mask, decide_eq_true_eq] at hcleared
      rw [hcleared]
      exact hleaves.exists_clrBit hown rfl
  exact ⟨ρ₁, _, hnotify, by rw [Round.clearDispatchMask, hr']⟩

def readyEvents (r : SelectReactor η) : List (EventType × ℤ) :=
  [.write, .except, .read].flatMap fun e => (r.dispatchSet.of e).handles.map fun g => (e, g)

theorem mem_readyEvents {r : SelectReactor η} {e : EventType} {g : ℤ} :
    (e, g) ∈ r.readyEvents ↔ (r.dispatchSet.of e).has g = true := by
  simp only [readyEvents, mem_flatMap, mem_map, Prod.mk.injEq, mem_handles]
  constructor
  · rintro ⟨e', -, g', hg', rfl, rfl⟩
    exact hg'
  · intro hg
    exact ⟨e, by cases e <;> decide, g, hg, rfl, rfl⟩

structure Served (r₀ : SelectReactor η) (e : EventType) (ρ ρ' : Round η) : Prop where
  serving : Serving r₀ none ρ'.reactor
  others : ∀ e', e' ≠ e → ρ'.reactor.dispatchSet.of e' = ρ.reactor.dispatchSet.of e'
  turns : ∃ new, ρ'.turns = ρ.turns ++ new ∧
    new.map (fun t => (t.event, t.handle)) =
      (ρ.reactor.dispatchSet.of e).handles.map (fun g => (e, g)) ∧
    ∀ t ∈ new, t.reactor.find t.handle = r₀.find t.handle

theorem Served.length_turns (h : Served r₀ e ρ ρ') :
    ρ'.turns.length = ρ.turns.length + (ρ.reactor.dispatchSet.of e).handles.length := by
  obtain ⟨new, hturns, hnew, -⟩ := h.turns
  have := congrArg length hnew
  rw [length_map, length_map] at this
  rw [hturns, length_append, this]

theorem Serving.served_of_nil (hρ : Serving r₀ none ρ.reactor)
    (hnil : (ρ.reactor.dispatchSet.of e).handles = []) : Served r₀ e ρ ρ :=
  ⟨hρ, fun _ _ => rfl, [], (append_nil _).symm, by rw [hnil]; rfl, forall_mem_nil _⟩

theorem Serving.exists_ioLoop {upcalls : ℕ → Upcall η} {numActiveHandles low : ℤ} {t n : ℕ}
    {it : HandleSetIterator} {turns : List (Turn η)} (hρ : Serving r₀ none ρ.reactor)
    (hexact : (ρ.reactor.dispatchSet.of e).Exact)
    (hit : it.Tracks (ρ.reactor.dispatchSet.of e) low)
    (hlow : ∀ g, (ρ.reactor.dispatchSet.of e).has g = true → low ≤ g) (hn : n = ρ.turns.length)
    (ht : (ρ.reactor.dispatchSet.of e).handles.length ≤ t) (hnum : (n + t : ℤ) = numActiveHandles)
    (hmild : MildTurns upcalls r₀ turns)
    (hpre : Meets (fun ρ' => ρ'.turns <+: turns) (fun p => p.2.turns <+: turns)
      (ioLoop upcalls numActiveHandles e t it n ρ)) :
    ∃ ρ', ioLoop upcalls numActiveHandles e t it n ρ = .ok (ρ'.turns.length, ρ') ∧
      Served r₀ e ρ ρ' := by
  induction t generalizing ρ it n low with
  | zero =>
    exact ⟨ρ, by rw [hn]; rfl,
      hρ.served_of_nil (eq_nil_of_length_eq_zero (Nat.le_zero.mp ht))⟩
  | succ t ih =>
    have hfrom : (ρ.reactor.dispatchSet.of e).handlesFrom low =
        (ρ.reactor.dispatchSet.of e).handles :=
      filter_eq_self.mpr fun g hg => decide_eq_true (hlow g (mem_handles.mp hg))
    rw [ioLoop] at hpre ⊢
    dsimp only at hpre ⊢
    rcases hit.handlesFrom_eq hexact.max with ⟨hend, hnil⟩ | ⟨hle, hcons⟩
    · rw [HandleSetIterator.next_of_max_lt hend, if_neg fun h => h.1 rfl]
      exact ⟨ρ, by rw [hn], hρ.served_of_nil (hfrom.symm.trans hnil)⟩
    obtain ⟨hfirst, hnext⟩ := hit.next hle
    have hnonneg := (hit.valid.resolve_right (by omega)).nonneg
    have hlt := (ρ.reactor.dispatchSet.of e).max_lt
    have hheld := hit.copied _ (hit.valid.resolve_right (by omega)).holds
    have hleast (g : ℤ) (hg : (ρ.reactor.dispatchSet.of e).has g = true) : it.mHandleIndex ≤ g :=
      hit.least g (hexact.max.le hg) (hlow g hg) hg
    rw [hfirst, if_pos ⟨by omega, by omega⟩] at hpre ⊢
    -- the turn is among those of which the upcalls are known to be mild
    have henter : (ρ.enter it.mHandleIndex e).turns <+: turns := by
      refine hpre.of_bind.combine (notifyHandle_turns _ _ _ _)
        (fun ρ₁ h₁ heq => heq ▸ h₁) fun ρ₁ h₁ heq => heq ▸ ?_
      refine h₁.of_bind.combine (clearDispatchMask_turns _ _ _)
        (fun ρ₂ h₂ heq => heq ▸ h₂) fun ρ₂ h₂ heq => heq ▸ ?_
      exact prefix_of_ioLoop h₂
    have hu : (upcalls n).Mild r₀ (e, it.mHandleIndex) := hn ▸ (hmild.of_prefix henter).last
    obtain ⟨s, hclr, hs⟩ := hexact.exists_clrBit
      (show 0 ≤ it.mHandleIndex ∧ it.mHandleIndex < 1024 by omega)
    obtain ⟨ρ₁, ρ₂, hnotify, hclear⟩ := hρ.exists_turn hu hclr
    obtain ⟨hρ₂, hclr₂, hothers⟩ := hρ.turn hu hnotify hclear
    obtain rfl := Except.ok.inj (hclr.symm.trans hclr₂)
    have hturns := turns_of_turn hnotify hclear
    have hleft := handles_of_clrBit hclr hleast
    have hmax := ((hρ.known e).clrBit hclr).2
    have hbits := has_of_clrBit hclr
    have hlow₂ (g : ℤ) (hg : (ρ₂.reactor.dispatchSet.of e).has g = true) :
        it.mHandleIndex + 1 ≤ g := by
      rw [hbits, Bool.and_eq_true, decide_eq_true_eq] at hg
      have := hleast g hg.1
      omega
    have hlen : (ρ.reactor.dispatchSet.of e).handles.length =
        (ρ₂.reactor.dispatchSet.of e).handles.length + 1 := by
      rw [← hfrom, hcons, hleft, length_cons]
    rw [hnotify] at hpre
    have hpre : Meets _ _ (ρ₁.clearDispatchMask _ _ >>= _) := hpre
    rw [hclear] at hpre
    obtain ⟨ρ', hloop, hserved⟩ := ih hρ₂ hs (hnext.clear (by omega) hbits hmax) hlow₂
      (n := n + 1) (by rw [hturns, length_append, hn]; rfl) (by omega) (by push_cast; omega)
      hpre
    refine ⟨ρ', bind_eq_ok.mpr ⟨ρ₁, hnotify, bind_eq_ok.mpr ⟨ρ₂, hclear, hloop⟩⟩,
      hserved.serving, fun e' hne => (hserved.others e' hne).trans (hothers e' hne), ?_⟩
    obtain ⟨new, hnew, hpairs, hfinds⟩ := hserved.turns
    refine ⟨⟨ρ.reactor, ρ.done, it.mHandleIndex, e⟩ :: new, ?_, ?_, ?_⟩
    · rw [hnew, hturns, append_assoc]
      rfl
    · rw [map_cons, hpairs, hleft, ← hfrom, hcons, map_cons]
    · refine forall_mem_cons.mpr ⟨?_, hfinds⟩
      exact (hρ.waiting e _ hheld (by simp)).2

theorem Serving.exists_dispatchIoSet {β : Type} {upcalls : ℕ → Upcall η} {numActiveHandles : ℕ}
    {turns : List (Turn η)} {P : β → Prop} {rest : ℕ × Round η → Except (Round η) β}
    (hρ : Serving r₀ none ρ.reactor) (hexact : (ρ.reactor.dispatchSet.of e).Exact)
    (hle : ρ.turns.length + (ρ.reactor.dispatchSet.of e).handles.length ≤ numActiveHandles)
    (hmild : MildTurns upcalls r₀ turns)
    (hpre : Meets (fun ρ' => ρ'.turns <+: turns) P
      (ρ.dispatchIoSet upcalls numActiveHandles ρ.turns.length e >>= rest))
    (hrest : ∀ p, Meets (fun ρ' => ρ'.turns <+: turns) P (rest p) → p.2.turns <+: turns) :
    ∃ ρ', ρ.dispatchIoSet upcalls numActiveHandles ρ.turns.length e =
        .ok (ρ'.turns.length, ρ') ∧ Served r₀ e ρ ρ' ∧
      Meets (fun ρ' => ρ'.turns <+: turns) P (rest (ρ'.turns.length, ρ')) := by
  have hnonneg (g : ℤ) (hg : (ρ.reactor.dispatchSet.of e).has g = true) : 0 ≤ g := by
    obtain ⟨i, -, rfl⟩ := exists_of_has hg
    omega
  obtain ⟨ρ', hloop, hserved⟩ := hρ.exists_ioLoop hexact (HandleSetIterator.tracks_new hexact.max)
    hnonneg rfl (t := (numActiveHandles - ρ.turns.length : ℤ).toNat) (by omega) (by omega) hmild
    (hpre.of_bind.mono (fun _ h => h) hrest)
  rw [dispatchIoSet, hloop] at hpre
  exact ⟨ρ', hloop, hserved, hpre⟩

theorem prefix_of_dispatchIoSet_bind {β : Type} {upcalls : ℕ → Upcall η} {numActiveHandles : ℤ}
    {n : ℕ} {turns : List (Turn η)} {P : β → Prop} {rest : ℕ × Round η → Except (Round η) β}
    (hrest : ∀ p, Meets (fun ρ' => ρ'.turns <+: turns) P (rest p) → p.2.turns <+: turns)
    (h : Meets (fun ρ' => ρ'.turns <+: turns) P
      (ρ.dispatchIoSet upcalls numActiveHandles n e >>= rest)) : ρ.turns <+: turns :=
  prefix_of_ioLoop (h.of_bind.mono (fun _ h => h) hrest)

theorem length_readyEvents (r : SelectReactor η) :
    r.readyEvents.length = (r.dispatchSet.of .write).handles.length +
      (r.dispatchSet.of .except).handles.length + (r.dispatchSet.of .read).handles.length := by
  simp [readyEvents, Nat.add_assoc]

theorem Serving.exists_dispatchIoHandlers {upcalls : ℕ → Upcall η} {turns : List (Turn η)}
    (hρ : Serving r₀ none ρ.reactor) (hexact : ∀ e, (ρ.reactor.dispatchSet.of e).Exact)
    (hnil : ρ.turns = []) (hmild : MildTurns upcalls r₀ turns)
    (hpre : Meets (fun ρ' => ρ'.turns <+: turns) (fun p => p.2.2.turns <+: turns)
      (ρ.dispatchIoHandlers upcalls ρ.reactor.readyEvents.length ρ.turns.length)) :
    ∃ ρ', ρ.dispatchIoHandlers upcalls ρ.reactor.readyEvents.length ρ.turns.length =
        .ok (0, ρ'.turns.length, ρ') ∧
      ρ'.turns.map (fun t => (t.event, t.handle)) = ρ.reactor.readyEvents ∧
      ∀ t ∈ ρ'.turns, t.reactor.find t.handle = r₀.find t.handle := by
  have hlen := length_readyEvents ρ.reactor
  have hzero : ρ.turns.length = 0 := by rw [hnil]; rfl
  generalize ρ.reactor.readyEvents.length = num at hpre hlen ⊢
  -- every set is dispatched from the round that the one before it leaves
  obtain ⟨ρ₁, h₁, hserved₁, hpre₁⟩ := hρ.exists_dispatchIoSet (hexact .write) (by omega) hmild
    hpre fun _ => prefix_of_dispatchIoSet_bind fun _ => prefix_of_dispatchIoSet_bind fun _ h => h
  have hlen₁ := hserved₁.length_turns
  have hexcept := hserved₁.others .except (by decide)
  obtain ⟨ρ₂, h₂, hserved₂, hpre₂⟩ := hserved₁.serving.exists_dispatchIoSet
    (hexcept ▸ hexact .except) (by rw [hexcept]; omega) hmild
    hpre₁ fun _ => prefix_of_dispatchIoSet_bind fun _ h => h
  have hlen₂ := hserved₂.length_turns
  have hread := (hserved₂.others .read (by decide)).trans (hserved₁.others .read (by decide))
  obtain ⟨ρ₃, h₃, hserved₃, -⟩ := hserved₂.serving.exists_dispatchIoSet
    (hread ▸ hexact .read) (by rw [hread, hlen₂, hexcept]; omega) hmild hpre₂ fun _ h => h
  have hlen₃ := hserved₃.length_turns
  rw [hread, hlen₂, hexcept, hlen₁, hzero] at hlen₃
  refine ⟨ρ₃, ?_, ?_⟩
  · have hleft : (num : ℤ) - ρ₃.turns.length = 0 := by omega
    refine bind_eq_ok.mpr ⟨_, h₁, bind_eq_ok.mpr ⟨_, h₂, bind_eq_ok.mpr ⟨_, h₃, ?_⟩⟩⟩
    dsimp only
    rw [hleft]
  · obtain ⟨new₁, hnew₁, hpairs₁, hfind₁⟩ := hserved₁.turns
    obtain ⟨new₂, hnew₂, hpairs₂, hfind₂⟩ := hserved₂.turns
    obtain ⟨new₃, hnew₃, hpairs₃, hfind₃⟩ := hserved₃.turns
    rw [hexcept] at hpairs₂
    rw [hread] at hpairs₃
    rw [hnew₃, hnew₂, hnew₁, hnil, nil_append]
    constructor
    · rw [map_append, map_append, hpairs₁, hpairs₂, hpairs₃]
      simp [readyEvents]
    · exact forall_mem_append.mpr ⟨forall_mem_append.mpr ⟨hfind₁, hfind₂⟩, hfind₃⟩

structure Stuck (r₀ : SelectReactor η) (bad : EventType) (ρ : Round η) : Prop where
  serving : Serving r₀ none ρ.reactor
  short : (ρ.reactor.dispatchSet.of bad).Short
  past : ∀ t ∈ ρ.turns, (ρ.reactor.dispatchSet.of t.event).has t.handle = false

variable {bad : EventType}

theorem Stuck.turn (hρ : Stuck r₀ bad ρ) (hu : u.Mild r₀ (e, handle))
    (hle : 0 ≤ handle ∧ handle ≤ (ρ.reactor.dispatchSet.of e).mMaxHandle)
    (hnotify : (ρ.enter handle e).notifyHandle handle e u = .ok ρ₁)
    (hclear : ρ₁.clearDispatchMask handle e.mask = .ok ρ') : Stuck r₀ bad ρ' := by
  obtain ⟨hserving, hclr, hothers⟩ := hρ.serving.turn hu hnotify hclear
  refine ⟨hserving, ?_, fun t ht => ?_⟩
  · by_cases hbad : bad = e
    · subst hbad
      exact hρ.short.clrBit hle hclr
    · rw [hothers bad hbad]
      exact hρ.short
  · rw [turns_of_turn hnotify hclear, mem_append] at ht
    rcases ht with ht | ht
    · by_cases he : t.event = e
      · rw [he, has_of_clrBit hclr, ← he, hρ.past t ht, Bool.false_and]
      · rw [hothers _ he]
        exact hρ.past t ht
    · obtain rfl := mem_singleton.mp ht
      exact has_self_of_clrBit hclr

theorem Stuck.ioLoop {upcalls : ℕ → Upcall η} {numActiveHandles : ℤ} {t n n' : ℕ}
    {it : HandleSetIterator} (hρ : Stuck r₀ bad ρ) (hn : n = ρ.turns.length)
    (hit : it.Valid (ρ.reactor.dispatchSet.of e)) (hmild : MildTurns upcalls r₀ ρ'.turns)
    (h : ioLoop upcalls numActiveHandles e t it n ρ = .ok (n', ρ')) :
    Stuck r₀ bad ρ' ∧ n' = ρ'.turns.length := by
  induction t generalizing ρ it n with
  | zero =>
    cases h
    exact ⟨hρ, hn⟩
  | succ t ih =>
    rw [ioLoop] at h
    dsimp only at h
    split_ifs at h with hgo
    · rcases HandleSetIterator.next_spec hit with ⟨-, hend⟩ | ⟨hle, hnonneg, -, hnext, hvalid, -⟩
      · exact absurd hend hgo.1
      rw [hnext] at h
      obtain ⟨ρ₁, hnotify, h⟩ := bind_eq_ok.mp h
      obtain ⟨ρ₂, hclear, h⟩ := bind_eq_ok.mp h
      have hturns := turns_of_turn hnotify hclear
      have hpre := prefix_of_ioLoop_eq_ok h
      have hu : (upcalls n).Mild r₀ (e, it.mHandleIndex) := by
        rw [hn]
        exact (hmild.of_prefix (hturns ▸ hpre)).last
      have hclr := (hρ.serving.turn hu hnotify hclear).2.1
      exact ih (hρ.turn hu ⟨hnonneg, hle⟩ hnotify hclear)
        (by rw [hturns, length_append, hn]; rfl)
        (hvalid.mono ((hρ.serving.known e).clrBit hclr).2) h
    · cases h
      exact ⟨hρ, hn⟩

theorem Stuck.dispatchIoHandlers {upcalls : ℕ → Upcall η} {numActiveHandles left : ℤ} {n n' : ℕ}
    (hρ : Stuck r₀ bad ρ) (hn : n = ρ.turns.length) (hmild : MildTurns upcalls r₀ ρ'.turns)
    (h : ρ.dispatchIoHandlers upcalls numActiveHandles n = .ok (left, n', ρ')) :
    Stuck r₀ bad ρ' ∧ n' = ρ'.turns.length := by
  obtain ⟨-, n₁, ρ₁, n₂, ρ₂, h₁, h₂, h₃⟩ := dispatchIoHandlers_eq_ok h
  have hpre₂ := prefix_of_ioLoop_eq_ok h₂
  have hpre₃ := prefix_of_ioLoop_eq_ok h₃
  have hvalid (s : HandleSet) := (HandleSetIterator.new_spec s).1
  obtain ⟨hρ₁, hn₁⟩ :=
    hρ.ioLoop hn (hvalid _) (hmild.of_prefix (hpre₂.trans hpre₃)) h₁
  obtain ⟨hρ₂, hn₂⟩ := hρ₁.ioLoop hn₁ (hvalid _) (hmild.of_prefix hpre₃) h₂
  exact hρ₂.ioLoop hn₂ (hvalid _) hmild h₃

end SelectReactor

namespace Dispatching

open SelectReactor

variable {r₀ : SelectReactor η} {s s' s₁ : Dispatching η} {upcalls : Upcalls η} {bad : EventType}

section

variable (hs : Serving r₀ none s.round.reactor) (htimer : ∀ op ∈ (upcalls.expire
  s.passes).operations, op.Spares r₀ none)
include hs htimer

theorem serving_of_timer (h : s.dispatchTimerHandler upcalls = .ok s') :
    Serving r₀ none s'.round.reactor ∧
      s'.round.reactor.dispatchSet = s.round.reactor.dispatchSet ∧
      s'.round.turns = s.round.turns := by
  obtain ⟨round, hperform, h⟩ := bind_eq_ok.mp h
  cases h
  have hsettle : Serving r₀ none s.round.settle.reactor :=
    ⟨⟨hs.sound.wait, hs.sound.registered, hs.sound.range⟩, hs.known, hs.ready, hs.waiting⟩
  obtain ⟨hserving, hleaves⟩ := hsettle.perform htimer hperform
  have hturns := s.round.settle.perform_turns (upcalls.expire s.passes).operations
  rw [hperform] at hturns
  exact ⟨hserving, hleaves.eq_of_none, hturns⟩

theorem exists_timer :
    ∃ s', s.dispatchTimerHandler upcalls = .ok s' ∧ s'.passes = s.passes + 1 ∧
      s'.otherHandlersDispatched =
        s.otherHandlersDispatched + (upcalls.expire s.passes).number := by
  have hsettle : Serving r₀ none s.round.settle.reactor :=
    ⟨⟨hs.sound.wait, hs.sound.registered, hs.sound.range⟩, hs.known, hs.ready, hs.waiting⟩
  obtain ⟨round, hperform⟩ := hsettle.exists_perform htimer nofun
  exact ⟨_, bind_eq_ok.mpr ⟨round, hperform, rfl⟩, rfl, rfl⟩

end

theorem pass_of_timer (hpos : 0 < s.activeHandleCount)
    (htimer : s.dispatchTimerHandler upcalls = .ok s₁) :
    s.pass upcalls = s₁.round.dispatchIoHandlers upcalls.io s.activeHandleCount
      s.ioHandlersDispatched >>= fun p =>
        .ok ({ s₁ with round := p.2.2, activeHandleCount := p.1, ioHandlersDispatched := p.2.1 },
          if p.1 > 0 then none else some (p.2.1 + s₁.otherHandlersDispatched : ℤ)) := by
  obtain ⟨hcount, hio, -⟩ := dispatchTimerHandler_eq_ok htimer
  have hne : s₁.activeHandleCount ≠ 0 := by omega
  rw [pass, if_neg (by omega), htimer, ← hcount, ← hio]
  exact if_neg hne

variable {result : Option ℤ}

theorem stuck_of_pass (hs : Stuck r₀ bad s.round)
    (hn : s.ioHandlersDispatched = s.round.turns.length)
    (htimer : ∀ op ∈ (upcalls.expire s.passes).operations, op.Spares r₀ none)
    (hmild : MildTurns upcalls.io r₀ s'.round.turns) (h : s.pass upcalls = .ok (s', result)) :
    Stuck r₀ bad s'.round ∧ s'.ioHandlersDispatched = s'.round.turns.length := by
  rw [pass] at h
  split_ifs at h
  · cases h
    have hserving := hs.serving
    exact ⟨⟨⟨⟨hserving.sound.wait, hserving.sound.registered, hserving.sound.range⟩,
      hserving.known, hserving.ready, hserving.waiting⟩, hs.short, hs.past⟩, hn⟩
  obtain ⟨s₁, hs₁, h⟩ := bind_eq_ok.mp h
  obtain ⟨hserving, hsets, hturns⟩ := serving_of_timer hs.serving htimer hs₁
  have hn₁ : s₁.ioHandlersDispatched = s₁.round.turns.length := by
    rw [(dispatchTimerHandler_eq_ok hs₁).2.1, hturns, hn]
  have hstuck : Stuck r₀ bad s₁.round :=
    ⟨hserving, by rw [hsets]; exact hs.short, by rw [hsets, hturns]; exact hs.past⟩
  split_ifs at h
  · cases h
    exact ⟨hstuck, hn₁⟩
  · obtain ⟨⟨left, n, ρ⟩, hdispatch, h⟩ := bind_eq_ok.mp h
    cases h
    exact hstuck.dispatchIoHandlers hn₁ hmild hdispatch

theorem prefix_of_pass (h : s.pass upcalls = .ok (s', result)) :
    s.round.turns <+: s'.round.turns := by
  rw [pass] at h
  split_ifs at h
  · cases h
    exact prefix_rfl
  obtain ⟨s₁, hs₁, h⟩ := bind_eq_ok.mp h
  have hturns : s₁.round.turns = s.round.turns := by
    have := s.round.settle.perform_turns (upcalls.expire s.passes).operations
    rwa [(dispatchTimerHandler_eq_ok hs₁).2.2] at this
  rw [← hturns]
  split_ifs at h
  · cases h
    exact prefix_rfl
  · obtain ⟨⟨left, n, ρ⟩, hdispatch, h⟩ := bind_eq_ok.mp h
    cases h
    obtain ⟨-, n₁, ρ₁, n₂, ρ₂, h₁, h₂, h₃⟩ := dispatchIoHandlers_eq_ok hdispatch
    exact (prefix_of_ioLoop_eq_ok h₁).trans
      ((prefix_of_ioLoop_eq_ok h₂).trans (prefix_of_ioLoop_eq_ok h₃))

theorem prefix_of_loop {n : ℕ} (h : loop upcalls n s = .ok (s', result)) :
    s.round.turns <+: s'.round.turns := by
  induction n generalizing s with
  | zero =>
    cases h
    exact prefix_rfl
  | succ n ih =>
    obtain ⟨⟨s₁, - | v⟩, hpass, h⟩ := bind_eq_ok.mp h
    · exact (prefix_of_pass hpass).trans (ih h)
    · cases h
      exact prefix_of_pass hpass

theorem stuck_of_loop {n : ℕ} (hs : Stuck r₀ bad s.round)
    (hn : s.ioHandlersDispatched = s.round.turns.length)
    (htimer : ∀ k, ∀ op ∈ (upcalls.expire k).operations, op.Spares r₀ none)
    (hmild : MildTurns upcalls.io r₀ s'.round.turns) (h : loop upcalls n s = .ok (s', result)) :
    Stuck r₀ bad s'.round := by
  induction n generalizing s with
  | zero =>
    cases h
    exact hs
  | succ n ih =>
    obtain ⟨⟨s₁, - | v⟩, hpass, h⟩ := bind_eq_ok.mp h
    · obtain ⟨hs₁, hn₁⟩ :=
        stuck_of_pass hs hn (htimer _) (hmild.of_prefix (prefix_of_loop h)) hpass
      exact ih hs₁ hn₁ h
    · cases h
      exact (stuck_of_pass hs hn (htimer _) hmild hpass).1

end Dispatching

namespace SelectReactor

variable {r r₀ : SelectReactor η} {upcalls : Upcalls η}

/-- No upcall of a round removes an event that was ready at the beginning, except that the upcall
for an event may remove this event; and the upcalls for events do not return a negative value. -/
structure Mild (r₀ : SelectReactor η) (upcalls : Upcalls η) (activeHandleCount : ℤ) : Prop where
  io : ∀ passes, MildTurns upcalls.io r₀ (turnsOf (r₀.dispatch upcalls activeHandleCount passes))
  timer : ∀ k, ∀ op ∈ (upcalls.expire k).operations, op.Spares r₀ none

/-- Every ready event gets one upcall, which is for the handler of the handle, in the order of the
events, and `dispatch` returns the number of these upcalls and of the upcalls of timers. -/
def DispatchesAll (r₀ : SelectReactor η) (upcalls : Upcalls η) (activeHandleCount : ℤ) : Prop :=
  ∃ passes s, r₀.dispatch upcalls activeHandleCount passes = .ok (s, some
      (s.round.turns.length +
        ((range s.passes).map fun k => (upcalls.expire k).number).sum : ℕ)) ∧
    s.round.turns.map (fun t => (t.event, t.handle)) = r₀.readyEvents ∧
    ∀ t ∈ s.round.turns, ∃ eventHandler,
      r₀.find t.handle = some eventHandler ∧ t.reactor.find t.handle = some eventHandler

theorem meets_turnsOf (out : Except (Round η) (Dispatching η × Option ℤ)) :
    Meets (fun ρ => ρ.turns <+: turnsOf out) (fun p => p.1.round.turns <+: turnsOf out) out := by
  cases out <;> exact prefix_rfl

theorem dispatchesAll_of_nil (hr : Serving r₀ none r₀) (hnil : r₀.readyEvents = [])
    (htimer : ∀ k, ∀ op ∈ (upcalls.expire k).operations, op.Spares r₀ none) :
    r₀.DispatchesAll upcalls r₀.readyEvents.length := by
  obtain ⟨s, hs, hpasses, hother⟩ :=
    exists_timer (s := .start r₀ 0) hr (htimer 0)
  obtain ⟨hcount, hio, -⟩ := dispatchTimerHandler_eq_ok hs
  have hturns : s.round.turns = [] := (serving_of_timer hr (htimer 0) hs).2.2
  have hpass : (start r₀ 0).pass upcalls = .ok (s, some
      (s.ioHandlersDispatched + s.otherHandlersDispatched : ℤ)) := by
    refine (if_neg (show (0 : ℤ) ≠ -1 by decide)).trans ?_
    exact bind_eq_ok.mpr ⟨s, hs, if_pos hcount⟩
  refine ⟨1, s, ?_, ?_, ?_⟩
  · rw [hnil, dispatch]
    refine (loop_of_pass_some hpass 0).trans ?_
    rw [hio, hother, hturns, hpasses]
    simp [start]
  · rw [hturns, hnil]
    rfl
  · rw [hturns]
    exact forall_mem_nil _

theorem dispatchesAll_of_exact {n : ℕ} (hr : Serving r₀ none r₀)
    (hexact : ∀ e, (r₀.dispatchSet.of e).Exact) (hn : r₀.readyEvents.length = n)
    (hmild : r₀.Mild upcalls n) (hpos : 0 < n) : r₀.DispatchesAll upcalls n := by
  obtain ⟨s, hs, hpasses, hother⟩ :=
    exists_timer (s := .start r₀ n) hr (hmild.timer 0)
  obtain ⟨hserving, hsets, hturns⟩ := serving_of_timer hr (hmild.timer 0) hs
  have hready : s.round.reactor.readyEvents = r₀.readyEvents := by
    rw [readyEvents, hsets]
    rfl
  have hcount : 0 < (start r₀ n).activeHandleCount := Int.natCast_pos.mpr hpos
  have hpass := pass_of_timer hcount hs
  -- the upcalls of the turns of this pass are known to be mild
  have hpre : Meets (fun ρ => ρ.turns <+: turnsOf (r₀.dispatch upcalls n 1))
      (fun p => p.1.round.turns <+: turnsOf (r₀.dispatch upcalls n 1))
      ((start r₀ n).pass upcalls) := by
    refine (meets_turnsOf (r₀.dispatch upcalls n 1)).of_bind.mono (fun _ h => h) fun p hp => ?_
    obtain ⟨s₁, - | v⟩ := p <;> exact hp
  rw [hpass] at hpre
  have hio : Meets (fun ρ => ρ.turns <+: turnsOf (r₀.dispatch upcalls n 1))
      (fun p => p.2.2.turns <+: turnsOf (r₀.dispatch upcalls n 1))
      (s.round.dispatchIoHandlers upcalls.io s.round.reactor.readyEvents.length
        s.round.turns.length) := by
    rw [hready, hn, hturns]
    exact hpre.of_bind.mono (fun _ h => h) fun _ h => h
  obtain ⟨ρ, hdispatch, hpairs, hfinds⟩ := hserving.exists_dispatchIoHandlers
    (by rw [hsets]; exact hexact) hturns (hmild.io 1) hio
  rw [hready, hn, hturns] at hdispatch
  have hend : (start r₀ n).pass upcalls = .ok
      ({ s with round := ρ, activeHandleCount := 0, ioHandlersDispatched := ρ.turns.length },
        some (ρ.turns.length + s.otherHandlersDispatched : ℤ)) :=
    hpass.trans (bind_eq_ok.mpr ⟨_, hdispatch, rfl⟩)
  refine ⟨1, { s with
    round := ρ, activeHandleCount := 0, ioHandlersDispatched := ρ.turns.length },
    (loop_of_pass_some hend 0).trans ?_, hpairs.trans hready, fun t ht => ?_⟩
  · rw [hother, hpasses]
    simp [start]
  · have hmem : (t.event, t.handle) ∈ r₀.readyEvents := by
      rw [← hready, ← hpairs]
      exact mem_map_of_mem ht
    have hwait := (hr.waiting _ _ (mem_readyEvents.mp hmem) nofun).1
    obtain ⟨eh, heh⟩ := Option.isSome_iff_exists.mp (hr.sound.registered _ _ hwait).1
    exact ⟨eh, heh, (hfinds t ht).trans heh⟩

theorem not_dispatchesAll_of_short {count : ℤ} {bad : EventType} (hr : Serving r₀ none r₀)
    (hshort : (r₀.dispatchSet.of bad).Short) (hmild : r₀.Mild upcalls count) :
    ¬ r₀.DispatchesAll upcalls count := by
  rintro ⟨passes, s, hdispatch, hpairs, -⟩
  have hio := hmild.io passes
  rw [hdispatch] at hio
  have hstuck := stuck_of_loop (s := .start r₀ count)
    (show Stuck r₀ bad _ from ⟨hr, hshort, forall_mem_nil _⟩) rfl hmild.timer hio hdispatch
  obtain ⟨g, hg⟩ := hstuck.short.nonempty
  have hmem := mem_readyEvents.mpr (hstuck.serving.ready bad g hg)
  rw [← hpairs] at hmem
  obtain ⟨t, ht, heq⟩ := mem_map.mp hmem
  obtain ⟨rfl, rfl⟩ := Prod.mk.inj heq
  rw [hstuck.past t ht] at hg
  cases hg

theorem serving_of_collect {answer : SelectAnswer} {timeout : Option TimeValue} (hr : r.Sound)
    (hans : answer.Within (r.selectCall timeout)) (h : r.collect answer = .ok r₀)
    (hcount : answer.result = r₀.readyEvents.length) : Serving r₀ none r₀ := by
  by_cases hpos : 0 < answer.result
  · obtain ⟨heq, hsets⟩ := collect_spec hr.registered hans hpos h
    have hsound : r₀.Sound :=
      hr.live (h := .dispatch r₀.dispatchSet r.stateChanged) (by rw [heq]; rfl)
    have hwait : r₀.waitSet = r.waitSet := by rw [heq]
    refine ⟨hsound, fun e => (hsets e).1, fun _ _ hg => hg, fun e g hg _ => ⟨?_, rfl⟩⟩
    rw [hwait]
    exact (hsets e).2 g hg
  · -- nothing is ready
    have hnil : r₀.readyEvents = [] := eq_nil_of_length_eq_zero (by omega)
    have hnone (e : EventType) (g : ℤ) : (r₀.dispatchSet.of e).has g ≠ true := fun hg => by
      have := mem_readyEvents.mpr hg
      rw [hnil] at this
      cases this
    rw [collect, if_neg (by omega), if_neg (by omega)] at h
    have hsound : r₀.Sound := hr.live (h := .dispatch (r.waitSet.overwrite answer.masks)
      r.stateChanged) h
    exact ⟨hsound, fun e => .inr fun g hg => absurd hg (hnone e g), fun _ _ hg => hg,
      fun e g hg => absurd hg (hnone e g)⟩

def sampleAnswer (handle : ℕ) : SelectAnswer :=
  ⟨1, 0, fun e => if e = .read then BitWords.empty.insert handle else .empty⟩

def sampleReady (handle : ℕ) : Option (List (EventType × ℤ)) :=
  match sampleReactor handle with
  | .ok r₀ => some r₀.readyEvents
  | .error _ => none

theorem exists_of_sampleReady {handle : ℕ} {events : List (EventType × ℤ)}
    (h : sampleReady handle = some events) :
    ∃ r r₀, runSteps live new [.call (.registerHandler handle 1 readMask)] = .ok r ∧
      r.collect (sampleAnswer handle) = .ok r₀ ∧ sampleReactor handle = .ok r₀ ∧
      r₀.readyEvents = events := by
  unfold sampleReady at h
  split at h
  · rename_i r₀ hr₀
    obtain ⟨r, hr, hcollect⟩ := bind_eq_ok.mp hr₀
    exact ⟨r, r₀, runSteps_cons_eq_ok.mpr ⟨r, hr, rfl⟩, hcollect, hr₀, Option.some.inj h⟩
  · cases h

theorem sampleAnswer_within {handle : ℕ} (hlt : handle < 1024) {r : SelectReactor ℕ}
    (hrun : runSteps live new [.call (.registerHandler handle 1 readMask)] = .ok r) :
    (sampleAnswer handle).Within (r.selectCall none) := by
  obtain ⟨r₁, hbind, hr₁⟩ := runSteps_cons_eq_ok.mp hrun
  obtain rfl : r₁ = r := Except.ok.inj hr₁
  obtain ⟨-, -, hwait, -⟩ := bind_spec (show new.bind handle 1 readMask = .ok r₁ from hbind)
  intro e m i hm hbit
  dsimp only [selectCall, fdset] at hm
  split_ifs at hm
  cases hm
  dsimp only [sampleAnswer] at hbit
  split_ifs at hbit with he
  · rw [BitWords.bit_insert hlt, BitWords.bit_empty, Bool.or_false, decide_eq_true_eq] at hbit
    rw [← has_natCast, hwait]
    exact .inr ⟨by rw [he]; decide, congrArg _ hbit⟩
  · rw [BitWords.bit_empty] at hbit
    cases hbit

theorem sampleUpcalls_mild (r₀ : SelectReactor ℕ) (count : ℤ) :
    r₀.Mild (sampleUpcalls []) count where
  io _ _ _ _ := ⟨le_rfl, forall_mem_nil _⟩
  timer k op hop := by
    dsimp only [sampleUpcalls] at hop
    split_ifs at hop <;> cases hop

end SelectReactor

end Icm.Reactor
