import Icm.Reactor.Dispatch

/-!
# What a round dispatches

A round begins when `select` has returned. Upcalls of the round may remove handles and give them to
new handlers.
-/

namespace Icm.Reactor

open Icm.Lib Icm.Timer

variable {η : Type}

namespace Turn

def Right (t : Turn η) : Prop :=
  (t.reactor.find t.handle).isSome →
    (∀ op ∈ t.done, op.removes t.event t.handle = false) ∧
      ∀ op ∈ t.done, op.binds t.handle = false

def Fresh (t : Turn η) : Prop :=
  (t.reactor.find t.handle).isSome →
    (t.reactor.dispatchSet.of t.event).has t.handle = true ∧
      ∀ op ∈ t.done, op.removes t.event t.handle = true → op.clears t.event t.handle = true

instance (t : Turn η) : Decidable t.Right := inferInstanceAs (Decidable (_ → _))

end Turn

namespace Round

variable {ρ ρ' : Round η}

structure Consistent (ρ : Round η) : Prop where
  maxKnown : ∀ e, (ρ.reactor.dispatchSet.of e).MaxKnown
  registered : ∀ e g, (ρ.reactor.waitSet.of e).has g = true → (ρ.reactor.find g).isSome
  cleared : ∀ e g, (ρ.reactor.dispatchSet.of e).has g = true →
    ∀ op ∈ ρ.done, op.clears e g = false
  waiting : ∀ e g, (ρ.reactor.dispatchSet.of e).has g = true →
    (∀ op ∈ ρ.done, op.removes e g = true → op.clears e g = true) →
      (ρ.reactor.waitSet.of e).has g = true ∧ ∀ op ∈ ρ.done, op.binds g = false

structure Later (ρ ρ' : Round η) : Prop where
  done : ρ.done ⊆ ρ'.done
  ready : ∀ e g, (ρ.reactor.dispatchSet.of e).has g = true →
    (ρ'.reactor.dispatchSet.of e).has g = true ∨ ∃ op ∈ ρ'.done, op.clears e g = true
  max : ∀ e, (ρ'.reactor.dispatchSet.of e).mMaxHandle ≤ (ρ.reactor.dispatchSet.of e).mMaxHandle

theorem Later.refl (ρ : Round η) : ρ.Later ρ := ⟨fun _ h => h, fun _ _ h => .inl h, fun _ => le_rfl⟩

theorem Later.trans {ρ'' : Round η} (h : ρ.Later ρ') (h' : ρ'.Later ρ'') : ρ.Later ρ'' where
  done := fun _ hop => h'.done (h.done hop)
  ready e g hg := by
    rcases h.ready e g hg with hg' | ⟨op, hop, hclear⟩
    · exact h'.ready e g hg'
    · exact .inr ⟨op, h'.done hop, hclear⟩
  max e := (h'.max e).trans (h.max e)

theorem Consistent.register {handle : ℤ} {eventHandler : η} {mask : ReactorMask}
    (hρ : ρ.Consistent) (h : ρ.apply (.registerHandler handle eventHandler mask) = .ok ρ') :
    ρ'.Consistent ∧ ρ.Later ρ' := by
  obtain ⟨hop, -, hdone⟩ := apply_eq_ok h
  obtain ⟨hset, hfind, hwait, -⟩ := SelectReactor.bind_spec hop
  have hmem (op : Operation η) (hop : op ∈ ρ'.done) : op ∈ ρ.done ∨
      op = .registerHandler handle eventHandler mask ∧ ρ.reactor.find handle = none := by
    rw [hdone] at hop
    split_ifs at hop with heffect
    · rcases List.mem_append.mp hop with hop | hop
      · exact .inl hop
      · exact .inr ⟨List.mem_singleton.mp hop, Option.isNone_iff_eq_none.mp heffect⟩
    · exact .inl hop
  have hsub : ρ.done ⊆ ρ'.done := by
    rw [hdone]
    split_ifs
    · exact List.subset_append_left _ _
    · exact fun _ h => h
  refine ⟨⟨fun e => ?_, fun e g hg => ?_, fun e g hg op hop => ?_, fun e g hg hall => ?_⟩,
    ⟨hsub, fun e g hg => .inl (by rwa [hset]), fun e => by rw [hset]⟩⟩
  · rw [hset]
    exact hρ.maxKnown e
  · rw [hfind]
    rcases (hwait e g).mp hg with hg | ⟨-, rfl⟩
    · simp [hρ.registered e g hg]
    · simp
  · rw [hset] at hg
    rcases hmem op hop with hop | ⟨rfl, -⟩
    · exact hρ.cleared e g hg op hop
    · rfl
  · rw [hset] at hg
    obtain ⟨hwaiting, hbinds⟩ := hρ.waiting e g hg fun op hop => hall op (hsub hop)
    refine ⟨(hwait e g).mpr (.inl hwaiting), fun op hop => ?_⟩
    rcases hmem op hop with hop | ⟨rfl, hnone⟩
    · exact hbinds op hop
    · -- the handle has a handler, so that it does not get another one
      refine decide_eq_false fun heq => ?_
      have hsome := hρ.registered e g hwaiting
      rw [← heq, hnone] at hsome
      cases hsome

theorem Consistent.remove {handle : ℤ} {mask : ReactorMask} (hρ : ρ.Consistent)
    (h : ρ.apply (.removeHandler handle mask) = .ok ρ') : ρ'.Consistent ∧ ρ.Later ρ' := by
  obtain ⟨hop, hturns, hdone⟩ := apply_eq_ok h
  rcases SelectReactor.unbind_spec hop with ⟨hnone, hsame⟩ | ⟨hsome, -, hnarrow, hwait, hfind⟩
  · rw [SelectReactor.takesEffect, hnone] at hdone
    obtain rfl : ρ' = ρ := Round.ext hsame hdone hturns
    exact ⟨hρ, .refl _⟩
  rw [SelectReactor.takesEffect, hsome, if_pos rfl] at hdone
  have hmem (op : Operation η) (hop : op ∈ ρ'.done) :
      op ∈ ρ.done ∨ op = .removeHandler handle mask := by
    rw [hdone] at hop
    exact (List.mem_append.mp hop).imp id List.mem_singleton.mp
  have hsub : ρ.done ⊆ ρ'.done := by
    rw [hdone]
    exact List.subset_append_left _ _
  have hlast : .removeHandler handle mask ∈ ρ'.done := by
    rw [hdone]
    exact List.mem_append_right _ (List.mem_singleton.mpr rfl)
  refine ⟨⟨fun e => ((hnarrow e).maxKnown (hρ.maxKnown e)).1, fun e g hg => ?_,
    fun e g hg op hop => ?_, fun e g hg hall => ?_⟩,
    ⟨hsub, fun e g hg => ?_, fun e => ((hnarrow e).maxKnown (hρ.maxKnown e)).2⟩⟩
  · rcases hfind g with heq | ⟨rfl, -, hnot⟩
    · rw [heq]
      exact hρ.registered e g ((hwait e g).mp hg).1
    · rw [hnot e] at hg
      cases hg
  · obtain ⟨hold, hnot⟩ := ((hnarrow e).has_iff g).mp hg
    rcases hmem op hop with hop | rfl
    · exact hρ.cleared e g hold op hop
    · refine Bool.eq_false_of_not_eq_true fun hclear => hnot ?_
      obtain ⟨heq, hmask⟩ := Bool.and_eq_true_iff.mp hclear
      exact ⟨hmask, (of_decide_eq_true heq).symm⟩
  · obtain ⟨hold, hnot⟩ := ((hnarrow e).has_iff g).mp hg
    obtain ⟨hwaiting, hbinds⟩ := hρ.waiting e g hold fun op hop => hall op (hsub hop)
    refine ⟨?_, fun op hop => ?_⟩
    · -- a removal of the event would have taken the handle out of the dispatch set
      refine (hwait e g).mpr ⟨hwaiting, ?_⟩
      rintro ⟨hcov, rfl⟩
      have hclear := hall _ hlast (by simp [Operation.removes, hcov])
      exact hnot ⟨(Bool.and_eq_true_iff.mp hclear).2, rfl⟩
    · rcases hmem op hop with hop | rfl
      · exact hbinds op hop
      · rfl
  · by_cases hclear : e.clearedBy mask = true ∧ g = handle
    · obtain ⟨hclear, rfl⟩ := hclear
      exact .inr ⟨_, hlast, by simp [Operation.clears, hclear]⟩
    · exact .inl (((hnarrow e).has_iff g).mpr ⟨hg, hclear⟩)

theorem Consistent.apply {op : Operation η} (hρ : ρ.Consistent) (h : ρ.apply op = .ok ρ') :
    ρ'.Consistent ∧ ρ.Later ρ' := by
  cases op with
  | registerHandler handle eventHandler mask => exact hρ.register h
  | removeHandler handle mask => exact hρ.remove h

theorem Consistent.settle (hρ : ρ.Consistent) : ρ.settle.Consistent :=
  ⟨hρ.maxKnown, hρ.registered, hρ.cleared, hρ.waiting⟩

theorem Consistent.clearDispatchMask {handle : ℤ} {e : EventType} (hρ : ρ.Consistent)
    (h : ρ.clearDispatchMask handle e.mask = .ok ρ') :
    ρ'.Consistent ∧ ρ'.done = ρ.done ∧ ρ'.turns = ρ.turns ∧
      (∀ g, g ≠ handle → (ρ.reactor.dispatchSet.of e).has g = true →
        (ρ'.reactor.dispatchSet.of e).has g = true) ∧
      (ρ'.reactor.dispatchSet.of e).mMaxHandle ≤ (ρ.reactor.dispatchSet.of e).mMaxHandle := by
  obtain ⟨hclear, hdone, hturns⟩ := clearDispatchMask_eq_ok h
  obtain ⟨heq, hnarrow⟩ := SelectReactor.clearDispatchMask_spec hclear
  have hwait : ρ'.reactor.waitSet = ρ.reactor.waitSet := by rw [heq]
  have hfind (g : ℤ) : ρ'.reactor.find g = ρ.reactor.find g := by rw [heq]; rfl
  have hbit (e : EventType) (g : ℤ) (hg : (ρ'.reactor.dispatchSet.of e).has g = true) :
      (ρ.reactor.dispatchSet.of e).has g = true := (((hnarrow e).has_iff g).mp hg).1
  refine ⟨⟨fun e => ((hnarrow e).maxKnown (hρ.maxKnown e)).1, fun e g hg => ?_, fun e g hg => ?_,
    fun e g hg hall => ?_⟩, hdone, hturns,
    fun g hne hg => ((hnarrow e).has_iff g).mpr ⟨hg, fun h => hne h.2⟩,
    ((hnarrow e).maxKnown (hρ.maxKnown e)).2⟩
  · rw [hwait] at hg
    rw [hfind]
    exact hρ.registered e g hg
  · rw [hdone]
    exact hρ.cleared e g (hbit e g hg)
  · rw [hdone] at hall ⊢
    rw [hwait]
    exact hρ.waiting e g (hbit e g hg) hall

end Round

structure HandleSetIterator.Follows (it : HandleSetIterator) (e : EventType) (ρ : Round η) :
    Prop where
  valid : it.Valid (ρ.reactor.dispatchSet.of e)
  ready : ∀ g, it.Holds g → (ρ.reactor.dispatchSet.of e).has g = true ∨
    ∃ op ∈ ρ.done, op.clears e g = true

namespace Round

variable {ρ ρ' : Round η} {it : HandleSetIterator} {e : EventType}

theorem Later.follows (h : ρ.Later ρ') (hit : it.Follows e ρ) : it.Follows e ρ' where
  valid := hit.valid.mono (h.max e)
  ready g hg := by
    rcases hit.ready g hg with hg | ⟨op, hop, hclear⟩
    · exact h.ready e g hg
    · exact .inr ⟨op, h.done hop, hclear⟩

theorem Consistent.right_iff_fresh (hρ : ρ.Consistent) (hit : it.Follows e ρ)
    (hheld : it.Holds it.mHandleIndex) :
    Turn.Right ⟨ρ.reactor, ρ.done, it.mHandleIndex, e⟩ ↔
      Turn.Fresh ⟨ρ.reactor, ρ.done, it.mHandleIndex, e⟩ := by
  constructor
  · intro hright hsome
    obtain ⟨hremoves, -⟩ := hright hsome
    refine ⟨?_, fun op hop hremove => ?_⟩
    · rcases hit.ready _ hheld with hready | ⟨op, hop, hclear⟩
      · exact hready
      · have := Operation.removes_of_clears hclear
        rw [hremoves op hop] at this
        cases this
    · rw [hremoves op hop] at hremove
      cases hremove
  · intro hfresh hsome
    obtain ⟨hready, hnoticed⟩ := hfresh hsome
    refine ⟨fun op hop => ?_, (hρ.waiting e _ hready hnoticed).2⟩
    refine Bool.eq_false_of_not_eq_true fun hremove => ?_
    have hclear := hnoticed op hop hremove
    rw [hρ.cleared e _ hready op hop] at hclear
    cases hclear

def Settled (ρ : Round η) : Prop := ∀ t ∈ ρ.turns, (t.Right ↔ t.Fresh)

def Follow (ρ ρ' : Round η) : Prop := ρ'.Consistent ∧ ρ'.Settled ∧ ρ.Later ρ'

theorem Consistent.apply_meets {op : Operation η} (hρ : ρ.Consistent) (hs : ρ.Settled) :
    Meets Settled ρ.Follow (ρ.apply op) := by
  cases h : ρ.apply op with
  | error ρ' =>
    obtain rfl := apply_eq_error h
    exact hs
  | ok ρ' =>
    obtain ⟨hρ', hlater⟩ := hρ.apply h
    refine ⟨hρ', ?_, hlater⟩
    rw [Settled, (apply_eq_ok h).2.1]
    exact hs

theorem Consistent.perform_meets (hρ : ρ.Consistent) (hs : ρ.Settled) (ops : List (Operation η)) :
    Meets Settled ρ.Follow (ρ.perform ops) := by
  refine runSteps_meets (I := ρ.Follow) (fun ρ₁ op h => ?_) ⟨hρ, hs, .refl ρ⟩ ops
  obtain ⟨hρ₁, hs₁, hlater⟩ := h
  exact (hρ₁.apply_meets hs₁).mono (fun _ h => h) fun ρ₂ h => ⟨h.1, h.2.1, hlater.trans h.2.2⟩

theorem Consistent.notifyHandle_meets (hρ : ρ.Consistent) (hs : ρ.Settled) (handle : ℤ)
    (e : EventType) (upcall : Upcall η) :
    Meets Settled ρ.Follow (ρ.notifyHandle handle e upcall) := by
  rw [notifyHandle]
  split
  · exact ⟨hρ, hs, .refl ρ⟩
  refine (hρ.perform_meets hs upcall.operations).bind fun ρ₁ h₁ => ?_
  split_ifs with hneg
  · refine (h₁.1.apply_meets h₁.2.1).bind fun ρ₂ h₂ => ?_
    have hlater := h₁.2.2.trans h₂.2.2
    split_ifs
    · exact (h₂.1.perform_meets h₂.2.1 upcall.close).mono (fun _ h => h)
        fun ρ₃ h₃ => ⟨h₃.1, h₃.2.1, hlater.trans h₃.2.2⟩
    · exact ⟨h₂.1, h₂.2.1, hlater⟩
  · exact h₁

theorem Consistent.ioLoop_meets {upcalls : ℕ → Upcall η} {numActiveHandles : ℤ} (hρ : ρ.Consistent)
    (hs : ρ.Settled) (hit : it.Follows e ρ) (t n : ℕ) :
    Meets Settled (fun p => p.2.Consistent ∧ p.2.Settled)
      (ioLoop upcalls numActiveHandles e t it n ρ) := by
  induction t generalizing ρ it n with
  | zero => exact ⟨hρ, hs⟩
  | succ t ih =>
    rw [ioLoop]
    dsimp only
    rcases HandleSetIterator.next_spec hit.valid with ⟨-, hend⟩ | ⟨-, -, hheld, hnext, hvalid, hnew⟩
    · rw [if_neg fun h => h.1 hend]
      exact ⟨hρ, hs⟩
    split_ifs with hgo
    · rw [hnext]
      have hfresh := hρ.right_iff_fresh hit hheld
      have hρ₁ : (ρ.enter it.mHandleIndex e).Consistent :=
        ⟨hρ.maxKnown, hρ.registered, hρ.cleared, hρ.waiting⟩
      have hs₁ : (ρ.enter it.mHandleIndex e).Settled := by
        intro t ht
        rcases List.mem_append.mp ht with ht | ht
        · exact hs t ht
        · rw [List.mem_singleton.mp ht]
          exact hfresh
      have hit₁ : (it.next (ρ.reactor.dispatchSet.of e)).2.Follows e (ρ.enter it.mHandleIndex e) :=
        ⟨hvalid, fun g hg => (hnew g hg).2.elim (hit.ready g) .inl⟩
      refine (hρ₁.notifyHandle_meets hs₁ it.mHandleIndex e (upcalls n)).bind fun ρ₂ h₂ => ?_
      have hit₂ := h₂.2.2.follows hit₁
      cases hclear : ρ₂.clearDispatchMask it.mHandleIndex e.mask with
      | error ρ₃ =>
        obtain rfl := clearDispatchMask_eq_error hclear
        exact h₂.2.1
      | ok ρ₃ =>
        obtain ⟨hρ₃, hdone, hturns, hbits, hmax⟩ := h₂.1.clearDispatchMask hclear
        refine ih hρ₃ (by rw [Settled, hturns]; exact h₂.2.1) ⟨hit₂.valid.mono hmax, ?_⟩ (n + 1)
        -- the handle that was dispatched is not in the copy any more
        intro g hg
        rw [hdone]
        exact (hit₂.ready g hg).imp_left (hbits g (hnew g hg).1)
    · exact ⟨hρ, hs⟩

section

variable (hρ : ρ.Consistent) (hs : ρ.Settled) (upcalls : ℕ → Upcall η) (numActiveHandles : ℤ) (n :
  ℕ)
include hρ hs upcalls numActiveHandles n

theorem Consistent.dispatchIoSet_meets (e : EventType) :
    Meets Settled (fun p => p.2.Consistent ∧ p.2.Settled)
      (ρ.dispatchIoSet upcalls numActiveHandles n e) := by
  obtain ⟨hvalid, -, hheld, -⟩ := HandleSetIterator.new_spec (ρ.reactor.dispatchSet.of e)
  exact hρ.ioLoop_meets hs ⟨hvalid, fun g hg => .inl (hheld g hg)⟩ _ n

theorem Consistent.dispatchIoHandlers_meets :
    Meets Settled (fun p => p.2.2.Consistent ∧ p.2.2.Settled)
      (ρ.dispatchIoHandlers upcalls numActiveHandles n) := by
  refine (hρ.dispatchIoSet_meets hs upcalls numActiveHandles n .write).bind fun p₁ h₁ => ?_
  refine (h₁.1.dispatchIoSet_meets h₁.2 upcalls numActiveHandles p₁.1 .except).bind fun p₂ h₂ => ?_
  exact (h₂.1.dispatchIoSet_meets h₂.2 upcalls numActiveHandles p₂.1 .read).bind fun _ h₃ => h₃

end

end Round

namespace Dispatching

variable {upcalls : Upcalls η}

theorem loop_meets {E : Round η → Prop} {I : Dispatching η → Prop}
    (hpass : ∀ s, I s → Meets E (fun p => I p.1) (s.pass upcalls)) {s : Dispatching η} (hs : I s)
    (n : ℕ) : Meets E (fun p => I p.1) (loop upcalls n s) := by
  induction n generalizing s with
  | zero => exact hs
  | succ n ih =>
    refine (hpass s hs).bind fun p hp => ?_
    obtain ⟨s₁, - | v⟩ := p
    · exact ih hp
    · exact hp

theorem pass_meets (s : Dispatching η) (h : s.round.Consistent ∧ s.round.Settled) :
    Meets Round.Settled (fun p => p.1.round.Consistent ∧ p.1.round.Settled) (s.pass upcalls) := by
  rw [pass]
  split_ifs with herr
  · exact ⟨h.1.settle, h.2⟩
  have htimer : Meets Round.Settled (fun s₁ => s₁.round.Consistent ∧ s₁.round.Settled)
      (s.dispatchTimerHandler upcalls) :=
    (h.1.settle.perform_meets h.2 _).bind fun _ h₁ => ⟨h₁.1, h₁.2.1⟩
  refine htimer.bind fun s₁ h₁ => ?_
  split_ifs
  · exact h₁
  · exact (h₁.1.dispatchIoHandlers_meets h₁.2 _ _ _).bind fun _ h₂ => h₂

theorem pass_meets_nil (s : Dispatching η) (h : s.activeHandleCount ≤ 0 ∧ s.round.turns = []) :
    Meets (fun ρ => ρ.turns = [])
      (fun p => p.1.activeHandleCount ≤ 0 ∧ p.1.round.turns = []) (s.pass upcalls) := by
  rw [pass]
  split_ifs with herr
  · exact h
  have htimer : Meets (fun ρ => ρ.turns = [])
      (fun s₁ => s₁.activeHandleCount ≤ 0 ∧ s₁.round.turns = [])
      (s.dispatchTimerHandler upcalls) := by
    have hperform := s.round.settle.perform_turns (upcalls.expire s.passes).operations
    rw [show s.round.settle.turns = [] from h.2] at hperform
    exact hperform.bind fun _ h₁ => ⟨h.1, h₁⟩
  refine htimer.bind fun s₁ h₁ => ?_
  split_ifs
  · exact h₁
  · rw [Round.dispatchIoHandlers_of_nonpos h₁.1]
    exact ⟨by dsimp only; omega, h₁.2⟩

end Dispatching

namespace SelectReactor

def turnsOf : Except (Round η) (Dispatching η × Option ℤ) → List (Turn η)
  | .ok (s, _) => s.round.turns
  | .error ρ => ρ.turns

theorem forall_mem_turnsOf {P : Turn η → Prop}
    {out : Except (Round η) (Dispatching η × Option ℤ)}
    (h : Meets (fun ρ => ∀ t ∈ ρ.turns, P t) (fun p => ∀ t ∈ p.1.round.turns, P t) out) :
    ∀ t ∈ turnsOf out, P t := by
  cases out with
  | ok p => exact h
  | error ρ => exact h

theorem consistent_of_collect {r r' : SelectReactor η} {answer : SelectAnswer}
    {timeout : Option TimeValue} (hr : r.Registered)
    (hans : answer.Within (r.selectCall timeout)) (hpos : 0 < answer.result)
    (h : r.collect answer = .ok r') : Round.Consistent ⟨r', [], []⟩ := by
  obtain ⟨heq, hsets⟩ := collect_spec hr hans hpos h
  have hwait : r'.waitSet = r.waitSet := by rw [heq]
  have hfind (g : ℤ) : r'.find g = r.find g := by rw [heq]; rfl
  refine ⟨fun e => (hsets e).1, fun e g hg => ?_, fun _ _ _ op hop => ?_, fun e g hg _ => ⟨?_, ?_⟩⟩
  · dsimp only at hg ⊢
    rw [hwait] at hg
    rw [hfind]
    exact (hr e g hg).1
  · cases hop
  · dsimp only
    rw [hwait]
    exact (hsets e).2 g hg
  · exact fun op hop => by cases hop

def sampleOps : List (Operation ℕ) :=
  [.registerHandler 3 1 readMask, .registerHandler 5 2 readMask, .registerHandler 7 3 readMask]

def sampleSelect (_ : ℕ) (call : SelectCall) : SelectAnswer :=
  ⟨3, 0, fun e => (call.masks e).getD .empty⟩

theorem sampleSelect_within (k : ℕ) (call : SelectCall) : (sampleSelect k call).Within call := by
  intro e m i hm hbit
  dsimp only [sampleSelect] at hbit
  rwa [hm] at hbit

def staleUpcalls : Upcalls ℕ where
  expire := fun _ => ⟨[], 0⟩
  io := fun k =>
    if k = 0 then ⟨[.removeHandler 5 readMask, .registerHandler 5 9 readMask], 0, []⟩
    else ⟨[], 0, []⟩

def sampleWaited : Option (SelectReactor ℕ × Waited ℕ) :=
  match runSteps apply new sampleOps with
  | .error _ => none
  | .ok r =>
    match r.waitForMultipleEvents (some fun _ => none) sampleSelect 1 with
    | .ok (some w) => some (r, w)
    | _ => none

def sampleTurn : Option (Option ℕ × Bool) :=
  sampleWaited.bind fun p =>
    (turnsOf (p.2.reactor.dispatch staleUpcalls p.2.numActiveHandles 1))[1]?.map fun t =>
      (t.reactor.find t.handle, decide t.Right)

theorem exists_sampleWaited {a : Option ℕ × Bool} (h : sampleTurn = some a) :
    ∃ r w, runSteps apply new sampleOps = .ok r ∧
      r.waitForMultipleEvents (some fun _ => none) sampleSelect 1 = .ok (some w) ∧
      ∃ t ∈ turnsOf (w.reactor.dispatch staleUpcalls w.numActiveHandles 1),
        (t.reactor.find t.handle, decide t.Right) = a := by
  obtain ⟨⟨r, w⟩, hwaited, h⟩ := Option.bind_eq_some_iff.mp h
  obtain ⟨t, ht, rfl⟩ := Option.map_eq_some_iff.mp h
  unfold sampleWaited at hwaited
  split at hwaited
  · cases hwaited
  rename_i r' hrun
  split at hwaited
  · rename_i w' hwait
    cases hwaited
    exact ⟨_, _, hrun, hwait, t, List.mem_of_getElem? ht, rfl⟩
  · cases hwaited

end SelectReactor

end Icm.Reactor
