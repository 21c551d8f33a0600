import Icm.Reactor.WaitForEvents

/-!
# Dispatching the handlers of ready handles

The method `dispatch` of class `SelectReactor` in `icc/SelectReactor.cpp`.
-/

namespace Icm.Reactor

open Icm.Lib

variable {η : Type}

structure Upcall (η : Type) where
  operations : List (Operation η)
  status : ℤ
  close : List (Operation η)

structure Expiry (η : Type) where
  operations : List (Operation η)
  number : ℕ

/-- What the upcalls of a round do: those of the timers for every pass, and those of the handlers
for every handle that is dispatched. -/
structure Upcalls (η : Type) where
  expire : ℕ → Expiry η
  io : ℕ → Upcall η

/-- A turn of the loop of `dispatchIoSet`: a handle that the iterator returned, before the handler
is notified, and the operations that took effect before. -/
structure Turn (η : Type) where
  reactor : SelectReactor η
  done : List (Operation η)
  handle : ℤ
  event : EventType

/-- The state of the reactor in a round, with the operations that took effect and the turns. -/
@[ext]
structure Round (η : Type) where
  reactor : SelectReactor η
  done : List (Operation η)
  turns : List (Turn η)

namespace Round

def apply (ρ : Round η) (op : Operation η) : Except (Round η) (Round η) :=
  match ρ.reactor.apply op with
  | .ok reactor =>
    .ok { ρ with
      reactor
      done := if ρ.reactor.takesEffect op then ρ.done ++ [op] else ρ.done }
  | .error _ => .error ρ

def settle (ρ : Round η) : Round η :=
  { ρ with reactor := { ρ.reactor with stateChanged := false } }

def perform (ρ : Round η) (ops : List (Operation η)) : Except (Round η) (Round η) :=
  runSteps apply ρ ops

def clearDispatchMask (ρ : Round η) (handle : ℤ) (mask : ReactorMask) :
    Except (Round η) (Round η) :=
  match ρ.reactor.clearDispatchMask handle mask with
  | .ok reactor => .ok { ρ with reactor }
  | .error _ => .error ρ

def notifyHandle (ρ : Round η) (handle : ℤ) (event : EventType) (upcall : Upcall η) :
    Except (Round η) (Round η) :=
  match ρ.reactor.find handle with
  | none => .ok ρ
  | some _ => do
    let ρ ← ρ.perform upcall.operations
    if upcall.status < 0 then do
      let close := ρ.reactor.callsHandleClose handle event.mask
      let ρ ← ρ.apply (.removeHandler handle event.mask)
      if close then ρ.perform upcall.close else .ok ρ
    else .ok ρ

def enter (ρ : Round η) (handle : ℤ) (event : EventType) : Round η :=
  { ρ with turns := ρ.turns ++ [⟨ρ.reactor, ρ.done, handle, event⟩] }

def ioLoop (upcalls : ℕ → Upcall η) (numActiveHandles : ℤ) (event : EventType) :
    ℕ → HandleSetIterator → ℕ → Round η → Except (Round η) (ℕ × Round η)
  | 0, _, numHandlersDispatched, ρ => .ok (numHandlersDispatched, ρ)
  | t + 1, handleIter, numHandlersDispatched, ρ =>
    let (handle, handleIter) := handleIter.next (ρ.reactor.dispatchSet.of event)
    if handle ≠ -1 ∧ numHandlersDispatched < numActiveHandles then do
      let ρ ← (ρ.enter handle event).notifyHandle handle event (upcalls numHandlersDispatched)
      let ρ ← ρ.clearDispatchMask handle event.mask
      ioLoop upcalls numActiveHandles event t handleIter (numHandlersDispatched + 1) ρ
    else .ok (numHandlersDispatched, ρ)

def dispatchIoSet (upcalls : ℕ → Upcall η) (numActiveHandles : ℤ) (numHandlersDispatched : ℕ)
    (event : EventType) (ρ : Round η) : Except (Round η) (ℕ × Round η) :=
  ioLoop upcalls numActiveHandles event (numActiveHandles - numHandlersDispatched).toNat
    (.new (ρ.reactor.dispatchSet.of event)) numHandlersDispatched ρ

def dispatchIoHandlers (upcalls : ℕ → Upcall η) (numActiveHandles : ℤ)
    (numHandlersDispatched : ℕ) (ρ : Round η) : Except (Round η) (ℤ × ℕ × Round η) := do
  let (n, ρ) ← ρ.dispatchIoSet upcalls numActiveHandles numHandlersDispatched .write
  let (n, ρ) ← ρ.dispatchIoSet upcalls numActiveHandles n .except
  let (n, ρ) ← ρ.dispatchIoSet upcalls numActiveHandles n .read
  .ok (numActiveHandles - n, n, ρ)

end Round

structure Dispatching (η : Type) where
  round : Round η
  activeHandleCount : ℤ
  ioHandlersDispatched : ℕ
  otherHandlersDispatched : ℕ
  passes : ℕ

namespace Dispatching

def start (r : SelectReactor η) (activeHandleCount : ℤ) : Dispatching η :=
  ⟨⟨r, [], []⟩, activeHandleCount, 0, 0, 0⟩

def dispatchTimerHandler (upcalls : Upcalls η) (s : Dispatching η) :
    Except (Round η) (Dispatching η) := do
  let round ← s.round.settle.perform (upcalls.expire s.passes).operations
  .ok { s with
    round
    otherHandlersDispatched :=
      s.otherHandlersDispatched + (upcalls.expire s.passes).number
    passes := s.passes + 1 }

def pass (upcalls : Upcalls η) (s : Dispatching η) :
    Except (Round η) (Dispatching η × Option ℤ) :=
  if s.activeHandleCount = -1 then .ok ({ s with round := s.round.settle }, some (-1))
  else do
    let s ← s.dispatchTimerHandler upcalls
    if s.activeHandleCount = 0 then
      .ok (s, some (s.ioHandlersDispatched + s.otherHandlersDispatched))
    else do
      let (activeHandleCount, ioHandlersDispatched, round) ←
        s.round.dispatchIoHandlers upcalls.io s.activeHandleCount s.ioHandlersDispatched
      .ok ({ s with round, activeHandleCount, ioHandlersDispatched },
        if activeHandleCount > 0 then none
        else some (ioHandlersDispatched + s.otherHandlersDispatched))

def loop (upcalls : Upcalls η) : ℕ → Dispatching η → Except (Round η) (Dispatching η × Option ℤ)
  | 0, s => .ok (s, none)
  | n + 1, s => do
    let (s, result) ← s.pass upcalls
    match result with
    | none => loop upcalls n s
    | some result => .ok (s, some result)

end Dispatching

namespace SelectReactor

def dispatch (r : SelectReactor η) (upcalls : Upcalls η) (activeHandleCount : ℤ) (passes : ℕ) :
    Except (Round η) (Dispatching η × Option ℤ) :=
  Dispatching.loop upcalls passes (.start r activeHandleCount)

end SelectReactor

namespace Round

variable {ρ ρ' : Round η} {upcalls : ℕ → Upcall η} {numActiveHandles : ℤ} {event : EventType}

def CanDispatch (ρ : Round η) : Prop := ∃ e, (ρ.reactor.dispatchSet.of e).CanYield

variable {op : Operation η}

theorem apply_eq_ok (h : ρ.apply op = .ok ρ') :
    ρ.reactor.apply op = .ok ρ'.reactor ∧ ρ'.turns = ρ.turns ∧
      ρ'.done = if ρ.reactor.takesEffect op then ρ.done ++ [op] else ρ.done := by
  rw [apply] at h
  split at h
  · rename_i reactor hreactor
    cases h
    exact ⟨hreactor, rfl, rfl⟩
  · cases h

theorem apply_eq_error (h : ρ.apply op = .error ρ') : ρ' = ρ := by
  rw [apply] at h
  split at h
  · cases h
  · exact (Except.error.inj h).symm

theorem clearDispatchMask_eq_ok {handle : ℤ} {mask : ReactorMask}
    (h : ρ.clearDispatchMask handle mask = .ok ρ') :
    ρ.reactor.clearDispatchMask handle mask = .ok ρ'.reactor ∧ ρ'.done = ρ.done ∧
      ρ'.turns = ρ.turns := by
  rw [clearDispatchMask] at h
  split at h
  · rename_i reactor hreactor
    cases h
    exact ⟨hreactor, rfl, rfl⟩
  · cases h

theorem clearDispatchMask_eq_error {handle : ℤ} {mask : ReactorMask}
    (h : ρ.clearDispatchMask handle mask = .error ρ') : ρ' = ρ := by
  rw [clearDispatchMask] at h
  split at h
  · cases h
  · exact (Except.error.inj h).symm

theorem apply_turns (ρ : Round η) (op : Operation η) :
    Meets (fun ρ' => ρ'.turns = ρ.turns) (fun ρ' => ρ'.turns = ρ.turns) (ρ.apply op) := by
  rw [apply]
  split <;> exact rfl

theorem perform_turns (ρ : Round η) (ops : List (Operation η)) :
    Meets (fun ρ' => ρ'.turns = ρ.turns) (fun ρ' => ρ'.turns = ρ.turns) (ρ.perform ops) :=
  runSteps_meets (I := fun ρ' : Round η => ρ'.turns = ρ.turns)
    (fun ρ₁ op hρ₁ => hρ₁ ▸ ρ₁.apply_turns op) rfl ops

theorem clearDispatchMask_turns (ρ : Round η) (handle : ℤ) (mask : ReactorMask) :
    Meets (fun ρ' => ρ'.turns = ρ.turns) (fun ρ' => ρ'.turns = ρ.turns)
      (ρ.clearDispatchMask handle mask) := by
  rw [clearDispatchMask]
  split <;> exact rfl

theorem notifyHandle_turns (ρ : Round η) (handle : ℤ) (e : EventType) (upcall : Upcall η) :
    Meets (fun ρ' => ρ'.turns = ρ.turns) (fun ρ' => ρ'.turns = ρ.turns)
      (ρ.notifyHandle handle e upcall) := by
  rw [notifyHandle]
  split
  · exact rfl
  refine (ρ.perform_turns upcall.operations).bind fun ρ₁ h₁ => ?_
  split_ifs
  · rw [← h₁]
    refine (ρ₁.apply_turns _).bind fun ρ₂ h₂ => ?_
    split_ifs
    · rw [← h₂]
      exact ρ₂.perform_turns upcall.close
    · exact h₂
  · exact h₁

theorem CanDispatch.of_apply (h : ρ.apply op = .ok ρ')
    (hcan : ρ'.CanDispatch) : ρ.CanDispatch := by
  obtain ⟨e, he⟩ := hcan
  have hop := (apply_eq_ok h).1
  cases op with
  | registerHandler handle eventHandler mask =>
    have hset := (SelectReactor.bind_spec hop).1
    exact ⟨e, by rwa [hset] at he⟩
  | removeHandler handle mask =>
    rcases SelectReactor.unbind_spec hop with ⟨-, heq⟩ | ⟨-, -, hnarrow, -⟩
    · exact ⟨e, by rwa [heq] at he⟩
    · exact ⟨e, (hnarrow e).canYield he⟩

theorem CanDispatch.of_perform {ops : List (Operation η)} (h : ρ.perform ops = .ok ρ')
    (hcan : ρ'.CanDispatch) : ρ.CanDispatch := by
  by_contra hnot
  exact runSteps_invariant (I := fun ρ => ¬ ρ.CanDispatch) (C := fun _ _ => True)
    (fun _ _ _ hnot _ hs hcan => hnot (hcan.of_apply hs)) hnot (eachStep_true _ _) h hcan

theorem le_of_ioLoop {t n n' : ℕ} {it : HandleSetIterator}
    (h : ioLoop upcalls numActiveHandles event t it n ρ = .ok (n', ρ')) : n ≤ n' := by
  induction t generalizing it n ρ with
  | zero =>
    cases h
    exact le_rfl
  | succ t ih =>
    rw [ioLoop] at h
    dsimp only at h
    split_ifs at h with hgo
    · obtain ⟨ρ₁, -, h⟩ := bind_eq_ok.mp h
      obtain ⟨ρ₂, -, h⟩ := bind_eq_ok.mp h
      have := ih h
      omega
    · cases h
      exact le_rfl

variable {n n' : ℕ}

theorem lt_of_dispatchIoSet (hn : (n : ℤ) < numActiveHandles)
    (hcan : (ρ.reactor.dispatchSet.of event).CanYield)
    (h : ρ.dispatchIoSet upcalls numActiveHandles n event = .ok (n', ρ')) : n < n' := by
  obtain ⟨hvalid, hnonneg, -, hyield⟩ :=
    HandleSetIterator.new_spec (ρ.reactor.dispatchSet.of event)
  have hle := hyield.mpr hcan
  rcases HandleSetIterator.next_spec hvalid with ⟨hend, -⟩ | ⟨-, -, -, hnext, -⟩
  · omega
  · obtain ⟨t, ht⟩ : ∃ t, (numActiveHandles - n).toNat = t + 1 :=
      ⟨(numActiveHandles - n).toNat - 1, by omega⟩
    rw [dispatchIoSet, ht, ioLoop] at h
    dsimp only at h
    rw [if_pos ⟨by omega, hn⟩] at h
    obtain ⟨ρ₁, -, h⟩ := bind_eq_ok.mp h
    obtain ⟨ρ₂, -, h⟩ := bind_eq_ok.mp h
    exact le_of_ioLoop h

theorem dispatchIoSet_of_not_canYield {n : ℕ}
    (hcan : ¬ (ρ.reactor.dispatchSet.of event).CanYield) :
    ρ.dispatchIoSet upcalls numActiveHandles n event = .ok (n, ρ) := by
  obtain ⟨hvalid, -, -, hyield⟩ := HandleSetIterator.new_spec (ρ.reactor.dispatchSet.of event)
  rw [dispatchIoSet]
  cases (numActiveHandles - n).toNat with
  | zero => rfl
  | succ t =>
    rw [ioLoop]
    dsimp only
    rcases HandleSetIterator.next_spec hvalid with ⟨-, hnext⟩ | ⟨hle, -⟩
    · exact if_neg fun h => h.1 hnext
    · exact absurd (hyield.mp hle) hcan

theorem dispatchIoHandlers_eq_ok {left : ℤ}
    (h : ρ.dispatchIoHandlers upcalls numActiveHandles n = .ok (left, n', ρ')) :
    left = numActiveHandles - n' ∧ ∃ n₁ ρ₁ n₂ ρ₂,
      ρ.dispatchIoSet upcalls numActiveHandles n .write = .ok (n₁, ρ₁) ∧
      ρ₁.dispatchIoSet upcalls numActiveHandles n₁ .except = .ok (n₂, ρ₂) ∧
      ρ₂.dispatchIoSet upcalls numActiveHandles n₂ .read = .ok (n', ρ') := by
  obtain ⟨⟨n₁, ρ₁⟩, h₁, h⟩ := bind_eq_ok.mp h
  obtain ⟨⟨n₂, ρ₂⟩, h₂, h⟩ := bind_eq_ok.mp h
  obtain ⟨⟨n₃, ρ₃⟩, h₃, h⟩ := bind_eq_ok.mp h
  obtain ⟨rfl, rfl, rfl⟩ := by simpa only [Prod.mk.injEq] using Except.ok.inj h
  exact ⟨rfl, n₁, ρ₁, n₂, ρ₂, h₁, h₂, h₃⟩

theorem le_of_dispatchIoHandlers {left : ℤ}
    (h : ρ.dispatchIoHandlers upcalls numActiveHandles n = .ok (left, n', ρ')) : n ≤ n' := by
  obtain ⟨-, n₁, ρ₁, n₂, ρ₂, h₁, h₂, h₃⟩ := dispatchIoHandlers_eq_ok h
  exact (le_of_ioLoop h₁).trans ((le_of_ioLoop h₂).trans (le_of_ioLoop h₃))

theorem lt_of_dispatchIoHandlers {left : ℤ} (hn : (n : ℤ) < numActiveHandles)
    (hcan : ρ.CanDispatch)
    (h : ρ.dispatchIoHandlers upcalls numActiveHandles n = .ok (left, n', ρ')) : n < n' := by
  obtain ⟨-, n₁, ρ₁, n₂, ρ₂, h₁, h₂, h₃⟩ := dispatchIoHandlers_eq_ok h
  have hle₁ := le_of_ioLoop h₁
  have hle₂ := le_of_ioLoop h₂
  have hle₃ := le_of_ioLoop h₃
  -- a set without a handle leaves the round as it is for the next one
  by_cases hwrite : (ρ.reactor.dispatchSet.of .write).CanYield
  · have := lt_of_dispatchIoSet hn hwrite h₁
    omega
  rw [dispatchIoSet_of_not_canYield hwrite] at h₁
  cases h₁
  by_cases hexcept : (ρ.reactor.dispatchSet.of .except).CanYield
  · have := lt_of_dispatchIoSet hn hexcept h₂
    omega
  rw [dispatchIoSet_of_not_canYield hexcept] at h₂
  cases h₂
  obtain ⟨e, he⟩ := hcan
  cases e with
  | read => exact lt_of_dispatchIoSet hn he h₃
  | write => exact absurd he hwrite
  | except => exact absurd he hexcept

theorem dispatchIoHandlers_of_dispatchIoSet {n : ℕ}
    (h : ∀ e, ρ.dispatchIoSet upcalls numActiveHandles n e = .ok (n, ρ)) :
    ρ.dispatchIoHandlers upcalls numActiveHandles n = .ok (numActiveHandles - n, n, ρ) :=
  bind_eq_ok.mpr ⟨_, h .write, bind_eq_ok.mpr ⟨_, h .except, bind_eq_ok.mpr ⟨_, h .read, rfl⟩⟩⟩

theorem dispatchIoHandlers_of_not_canDispatch {n : ℕ} (hcan : ¬ ρ.CanDispatch) :
    ρ.dispatchIoHandlers upcalls numActiveHandles n = .ok (numActiveHandles - n, n, ρ) :=
  dispatchIoHandlers_of_dispatchIoSet fun e =>
    dispatchIoSet_of_not_canYield fun he => hcan ⟨e, he⟩

theorem dispatchIoHandlers_of_nonpos {n : ℕ} (h : numActiveHandles ≤ 0) :
    ρ.dispatchIoHandlers upcalls numActiveHandles n = .ok (numActiveHandles - n, n, ρ) := by
  refine dispatchIoHandlers_of_dispatchIoSet fun e => ?_
  rw [dispatchIoSet, Int.toNat_of_nonpos (by omega)]
  rfl

end Round

namespace Dispatching

variable {s s' : Dispatching η} {upcalls : Upcalls η}

theorem dispatchTimerHandler_eq_ok (h : s.dispatchTimerHandler upcalls = .ok s') :
    s'.activeHandleCount = s.activeHandleCount ∧
      s'.ioHandlersDispatched = s.ioHandlersDispatched ∧
      s.round.settle.perform (upcalls.expire s.passes).operations = .ok s'.round := by
  obtain ⟨round, hround, h⟩ := bind_eq_ok.mp h
  cases h
  exact ⟨rfl, rfl, hround⟩

theorem canDispatch_of_dispatchTimerHandler (h : s.dispatchTimerHandler upcalls = .ok s')
    (hcan : s'.round.CanDispatch) : s.round.CanDispatch :=
  have hsettle : s.round.settle.CanDispatch := hcan.of_perform (dispatchTimerHandler_eq_ok h).2.2
  hsettle

theorem pass_eq_none (h : s.pass upcalls = .ok (s', none)) :
    0 < s'.activeHandleCount ∧ ∃ s₁, s.dispatchTimerHandler upcalls = .ok s₁ ∧
      s₁.round.dispatchIoHandlers upcalls.io s.activeHandleCount s.ioHandlersDispatched =
        .ok (s'.activeHandleCount, s'.ioHandlersDispatched, s'.round) := by
  rw [pass] at h
  split_ifs at h with herr
  · cases h
  obtain ⟨s₁, htimer, h⟩ := bind_eq_ok.mp h
  obtain ⟨hcount, hio, -⟩ := dispatchTimerHandler_eq_ok htimer
  split_ifs at h with hzero
  · cases h
  obtain ⟨⟨left, n, ρ⟩, hdispatch, h⟩ := bind_eq_ok.mp h
  obtain ⟨rfl, hleft⟩ := Prod.mk.inj (Except.ok.inj h)
  split_ifs at hleft with hpos
  rw [hcount, hio] at hdispatch
  exact ⟨hpos, s₁, htimer, hdispatch⟩

theorem loop_of_pass_none (h : s.pass upcalls = .ok (s', none)) (n : ℕ) :
    loop upcalls (n + 1) s = loop upcalls n s' := by
  rw [loop, h]
  rfl

theorem loop_of_pass_some {v : ℤ} (h : s.pass upcalls = .ok (s', some v)) (n : ℕ) :
    loop upcalls (n + 1) s = .ok (s', some v) := by
  rw [loop, h]
  rfl

theorem loop_of_pass_error {ρ : Round η} (h : s.pass upcalls = .error ρ) (n : ℕ) :
    loop upcalls (n + 1) s = .error ρ := by
  rw [loop, h]
  rfl

theorem pass_of_not_canDispatch {s₁ : Dispatching η} (hcount : 0 < s.activeHandleCount)
    (hio : s.ioHandlersDispatched = 0) (htimer : s.dispatchTimerHandler upcalls = .ok s₁)
    (hcan : ¬ s₁.round.CanDispatch) : s.pass upcalls = .ok (s₁, none) := by
  obtain ⟨hcount₁, hio₁, -⟩ := dispatchTimerHandler_eq_ok htimer
  rw [pass, if_neg (by omega)]
  refine bind_eq_ok.mpr ⟨s₁, htimer, ?_⟩
  rw [if_neg (by omega)]
  refine bind_eq_ok.mpr ⟨_, Round.dispatchIoHandlers_of_not_canDispatch hcan, ?_⟩
  have hleft : s₁.activeHandleCount - s₁.ioHandlersDispatched = s₁.activeHandleCount := by omega
  dsimp only
  rw [hleft, if_pos (by omega)]

theorem pass_of_timer_error {ρ : Round η} (hcount : s.activeHandleCount ≠ -1)
    (htimer : s.dispatchTimerHandler upcalls = .error ρ) : s.pass upcalls = .error ρ := by
  rw [pass, if_neg hcount, htimer]
  rfl

theorem loop_of_dispatched {k : ℕ} (hio : 1 ≤ s.ioHandlersDispatched)
    (hpos : 0 < s.activeHandleCount) (hk : s.activeHandleCount ≤ k) :
    (∃ s' v, loop upcalls k s = .ok (s', some v)) ∨ ∃ ρ, loop upcalls k s = .error ρ := by
  induction k generalizing s with
  | zero => omega
  | succ k ih =>
    cases hpass : s.pass upcalls with
    | error ρ => exact .inr ⟨ρ, loop_of_pass_error hpass k⟩
    | ok p =>
      obtain ⟨s₁, - | v⟩ := p
      · obtain ⟨hpos₁, s₂, -, hdispatch⟩ := pass_eq_none hpass
        have hleft := (Round.dispatchIoHandlers_eq_ok hdispatch).1
        have hle := Round.le_of_dispatchIoHandlers hdispatch
        rw [loop_of_pass_none hpass]
        exact ih (by omega) hpos₁ (by omega)
      · exact .inl ⟨s₁, v, loop_of_pass_some hpass k⟩

theorem loop_of_not_canDispatch (upcalls : Upcalls η) (n : ℕ) (hcount : 0 < s.activeHandleCount)
    (hio : s.ioHandlersDispatched = 0) (hcan : ¬ s.round.CanDispatch) :
    (∃ s', loop upcalls n s = .ok (s', none)) ∨ ∃ ρ, loop upcalls n s = .error ρ := by
  induction n generalizing s with
  | zero => exact .inl ⟨s, rfl⟩
  | succ n ih =>
    cases htimer : s.dispatchTimerHandler upcalls with
    | error ρ => exact .inr ⟨ρ, loop_of_pass_error (pass_of_timer_error (by omega) htimer) n⟩
    | ok s₁ =>
      obtain ⟨hcount₁, hio₁, -⟩ := dispatchTimerHandler_eq_ok htimer
      have hcan₁ : ¬ s₁.round.CanDispatch :=
        fun h => hcan (canDispatch_of_dispatchTimerHandler htimer h)
      rw [loop_of_pass_none (pass_of_not_canDispatch hcount hio htimer hcan₁)]
      exact ih (by omega) (by omega) hcan₁

theorem loop_of_idle (n : ℕ) (hcount : 0 < s.activeHandleCount)
    (hio : s.ioHandlersDispatched = 0) (hcan : ¬ s.round.CanDispatch)
    (hidle : ∀ k, s.passes ≤ k → (upcalls.expire k).operations = []) :
    ∃ s', loop upcalls n s = .ok (s', none) := by
  induction n generalizing s with
  | zero => exact ⟨s, rfl⟩
  | succ n ih =>
    obtain ⟨s₁, htimer, hpasses⟩ : ∃ s₁, s.dispatchTimerHandler upcalls = .ok s₁ ∧
        s₁.passes = s.passes + 1 := by
      rw [dispatchTimerHandler, hidle s.passes le_rfl]
      exact ⟨_, rfl, rfl⟩
    obtain ⟨hcount₁, hio₁, -⟩ := dispatchTimerHandler_eq_ok htimer
    have hcan₁ : ¬ s₁.round.CanDispatch :=
      fun h => hcan (canDispatch_of_dispatchTimerHandler htimer h)
    rw [loop_of_pass_none (pass_of_not_canDispatch hcount hio htimer hcan₁)]
    exact ih (by omega) (by omega) hcan₁ fun k hk => hidle k (by omega)

theorem loop_ne_error {n : ℕ} {v : ℤ} (h : loop upcalls n s = .ok (s', some v)) (m : ℕ)
    (ρ : Round η) : loop upcalls m s ≠ .error ρ := by
  induction n generalizing s m with
  | zero => cases h
  | succ n ih =>
    obtain ⟨⟨s₁, result⟩, hpass, h⟩ := bind_eq_ok.mp h
    cases m with
    | zero => exact nofun
    | succ m =>
      rw [loop, hpass]
      cases result with
      | none => exact ih h m
      | some v => exact nofun

end Dispatching

namespace SelectReactor

variable (r : SelectReactor η) (upcalls : Upcalls η) (activeHandleCount : ℤ)

def Returns : Prop := ∃ n s v, r.dispatch upcalls activeHandleCount n = .ok (s, some v)

def LeavesArray : Prop := ∃ n ρ, r.dispatch upcalls activeHandleCount n = .error ρ

def DispatchesFirst : Prop :=
  ∃ s, (Dispatching.start r activeHandleCount).dispatchTimerHandler upcalls = .ok s ∧
    s.round.CanDispatch

variable {r upcalls activeHandleCount}

theorem returns_or_leavesArray
    (h : activeHandleCount ≤ 0 ∨ r.DispatchesFirst upcalls activeHandleCount) :
    r.Returns upcalls activeHandleCount ∨ r.LeavesArray upcalls activeHandleCount := by
  cases hpass : (Dispatching.start r activeHandleCount).pass upcalls with
  | error ρ => exact .inr ⟨1, ρ, Dispatching.loop_of_pass_error hpass 0⟩
  | ok p =>
    obtain ⟨s, - | v⟩ := p
    · obtain ⟨hpos, s₁, htimer, hdispatch⟩ := Dispatching.pass_eq_none hpass
      have hleft := (Round.dispatchIoHandlers_eq_ok hdispatch).1
      dsimp only [Dispatching.start] at hleft
      obtain ⟨s₂, htimer₂, hcan⟩ := h.resolve_left (by omega)
      obtain rfl : s₂ = s₁ := Except.ok.inj (htimer₂.symm.trans htimer)
      have hio := Round.lt_of_dispatchIoHandlers
        (by dsimp only [Dispatching.start]; omega) hcan hdispatch
      have hrest := Dispatching.loop_of_pass_none hpass s.activeHandleCount.toNat
      rcases Dispatching.loop_of_dispatched hio hpos (Int.self_le_toNat _) with
        ⟨s', v, hloop⟩ | ⟨ρ, hloop⟩
      · exact .inl ⟨_, s', v, hrest.trans hloop⟩
      · exact .inr ⟨_, ρ, hrest.trans hloop⟩
    · exact .inl ⟨1, s, v, Dispatching.loop_of_pass_some hpass 0⟩

theorem not_returns (hpos : 0 < activeHandleCount)
    (hfirst : ¬ r.DispatchesFirst upcalls activeHandleCount) :
    ¬ r.Returns upcalls activeHandleCount := by
  rintro ⟨n, s, v, h⟩
  rcases n with - | n
  · cases h
  cases htimer : (Dispatching.start r activeHandleCount).dispatchTimerHandler upcalls with
  | error ρ =>
    have hpass := Dispatching.pass_of_timer_error
      (by dsimp only [Dispatching.start]; omega) htimer
    cases (Dispatching.loop_of_pass_error hpass n).symm.trans h
  | ok s₁ =>
    obtain ⟨hcount, hio, -⟩ := Dispatching.dispatchTimerHandler_eq_ok htimer
    dsimp only [Dispatching.start] at hcount hio
    have hcan : ¬ s₁.round.CanDispatch := fun hcan => hfirst ⟨s₁, htimer, hcan⟩
    have hpass := Dispatching.pass_of_not_canDispatch hpos rfl htimer hcan
    rw [dispatch, Dispatching.loop_of_pass_none hpass] at h
    rcases Dispatching.loop_of_not_canDispatch upcalls n (by omega) hio hcan with
      ⟨s', hloop⟩ | ⟨ρ, hloop⟩
    · cases hloop.symm.trans h
    · cases hloop.symm.trans h

def sampleReactor (handle : ℕ) : Except Fault (SelectReactor ℕ) := do
  let r ← new.bind handle 1 readMask
  r.collect ⟨1, 0, fun e => if e = .read then BitWords.empty.insert handle else .empty⟩

def sampleUpcalls (ops : List (Operation ℕ)) : Upcalls ℕ where
  expire := fun k => if k = 0 then ⟨ops, 1⟩ else ⟨[], 0⟩
  io := fun _ => ⟨[], 0, []⟩

def sampleStuck (handle : ℕ) (ops : List (Operation ℕ)) : Bool :=
  match sampleReactor handle with
  | .error _ => false
  | .ok r =>
    match (Dispatching.start r 1).dispatchTimerHandler (sampleUpcalls ops) with
    | .error _ => false
    | .ok s => s.round.reactor.dispatchSet.rdMask.mMaxHandle == -1 &&
        s.round.reactor.dispatchSet.wrMask.mMaxHandle == -1 &&
        s.round.reactor.dispatchSet.exMask.mMaxHandle == -1

theorem endless_of_sampleStuck {handle : ℕ} {ops : List (Operation ℕ)}
    (h : sampleStuck handle ops = true) :
    ∃ r, sampleReactor handle = .ok r ∧
      ∀ n, ∃ s, r.dispatch (sampleUpcalls ops) 1 n = .ok (s, none) := by
  unfold sampleStuck at h
  cases hr : sampleReactor handle with
  | error a => simp [hr] at h
  | ok r =>
  refine ⟨r, rfl, fun n => ?_⟩
  cases hs : (Dispatching.start r 1).dispatchTimerHandler (sampleUpcalls ops) with
  | error a => simp [hr, hs] at h
  | ok s =>
  simp only [hr, hs, Bool.and_eq_true, beq_iff_eq] at h
  obtain ⟨⟨hrd, hwr⟩, hex⟩ := h
  have hcan : ¬ s.round.CanDispatch := by
    rintro ⟨e, he⟩
    cases e with
    | read => exact HandleSet.not_canYield_of_max hrd he
    | write => exact HandleSet.not_canYield_of_max hwr he
    | except => exact HandleSet.not_canYield_of_max hex he
  obtain ⟨hcount, hio, -⟩ := Dispatching.dispatchTimerHandler_eq_ok hs
  have hpasses : s.passes = 1 := by
    obtain ⟨round, -, hround⟩ := bind_eq_ok.mp hs
    cases hround
    rfl
  rcases n with - | n
  · exact ⟨_, rfl⟩
  rw [dispatch, Dispatching.loop_of_pass_none
    (Dispatching.pass_of_not_canDispatch Int.one_pos rfl hs hcan)]
  refine Dispatching.loop_of_idle n (hcount ▸ Int.one_pos) hio hcan fun k hk => ?_
  dsimp only [sampleUpcalls]
  rw [if_neg (by omega)]

end SelectReactor

end Icm.Reactor
