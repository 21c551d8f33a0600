import Icm.Lib.Run

/-!
# The response of a call and the wait for it

In long mode `IcmTcpClient.invoke` enters its context into `responseWaitedMap`, offers the request,
and only then takes the lock of the context to wait; the selector thread takes it to notify.
-/

namespace Icm.Java.LongInvoke

open Icm.Lib

inductive Invoker
  | calling
  | registered
  | offered
  | inside
  | waiting
  | resumed
  | returned
  deriving DecidableEq, Repr

inductive Selector
  | idle
  | removed
  | recorded
  | inside
  | notified
  deriving DecidableEq, Repr

/-- One call and the selector thread: where the two threads are, whether the map has the id and the
queue the request, where the message is, and what the context has got. -/
structure State where
  invoker : Invoker
  selector : Selector
  responseWaitedMap : Bool
  requestQueue : Bool
  requested : Bool
  responded : Bool
  recorded : Bool
  signalled : Bool
  deriving DecidableEq, Repr

def State.new : State := ⟨.calling, .idle, false, false, false, false, false, false⟩

/-- The steps of the invoker, of the selector thread and, `respond`, of the server. -/
inductive Event
  | put
  | offer
  | enter
  | wait
  | resume
  | leave
  | write
  | respond
  | remove
  | record
  | lock
  | notify
  | unlock
  deriving DecidableEq, Repr

def State.step (s : State) (e : Event) : Except Unit State :=
  let free := s.invoker ∉ [.inside, .resumed] ∧ s.selector ∉ [.inside, .notified]
  match e with
  | .put =>
    if s.invoker = .calling then .ok { s with invoker := .registered, responseWaitedMap := true }
    else .error ()
  | .offer =>
    if s.invoker = .registered then .ok { s with invoker := .offered, requestQueue := true }
    else .error ()
  | .enter => if s.invoker = .offered ∧ free then .ok { s with invoker := .inside } else .error ()
  | .wait => if s.invoker = .inside then .ok { s with invoker := .waiting } else .error ()
  | .resume => if s.invoker = .waiting ∧ free then .ok { s with invoker := .resumed } else .error ()
  | .leave => if s.invoker = .resumed then .ok { s with invoker := .returned } else .error ()
  | .write =>
    if s.selector = .idle ∧ s.requestQueue then
      .ok { s with requestQueue := false, requested := true }
    else .error ()
  | .respond =>
    if s.requested then .ok { s with requested := false, responded := true } else .error ()
  | .remove =>
    if s.selector = .idle ∧ s.responded then
      .ok { s with
        selector := if s.responseWaitedMap then .removed else .idle
        responseWaitedMap := false, responded := false }
    else .error ()
  | .record =>
    if s.selector = .removed then .ok { s with selector := .recorded, recorded := true }
    else .error ()
  | .lock => if s.selector = .recorded ∧ free then .ok { s with selector := .inside } else .error ()
  | .notify =>
    if s.selector = .inside then .ok { s with selector := .notified, signalled := true }
    else .error ()
  | .unlock => if s.selector = .notified then .ok { s with selector := .idle } else .error ()

def State.Before (s : State) : Prop := s.invoker ∈ [.calling, .registered, .offered]

/-- The selector thread was first at the lock. -/
structure State.Passed (s : State) : Prop where
  before_or : s.Before ∨ s.invoker = .inside ∧ s.signalled
  locked : s.selector = .inside ∨ s.signalled
  recorded : s.recorded

/-- The invoker was first at the lock: there is no signal before it waits. -/
structure State.Ahead (s : State) : Prop where
  not_before : ¬ s.Before
  unsignalled : s.invoker = .inside → s.signalled = false ∧ s.selector ∉ [.inside, .notified]

/-- Nobody has taken the lock. -/
structure State.Open (s : State) : Prop where
  before : s.Before
  unlocked : s.selector ∉ [.inside, .notified]
  unsignalled : s.signalled = false
  recorded : s.selector = .recorded → s.recorded

variable {s s' t : State} {e : Event} {es : List Event}

theorem State.Passed.step (hs : s.Passed) (he : e ≠ .wait) (h : s.step e = .ok s') :
    s'.Passed := by
  obtain ⟨hbefore, hlocked, hrecorded⟩ := hs
  cases e <;> constructor <;> grind [State.step, State.Before]

theorem State.Ahead.step (hs : s.Ahead) (h : s.step e = .ok s') : s'.Ahead := by
  obtain ⟨hbefore, hunsignalled⟩ := hs
  cases e <;> constructor <;> grind [State.step, State.Before]

theorem State.Open.step (hs : s.Open) (hlock : e ≠ .lock) (henter : e ≠ .enter)
    (h : s.step e = .ok s') : e ≠ .wait ∧ s'.Open := by
  obtain ⟨hbefore, hunlocked, hunsignalled, hrecorded⟩ := hs
  refine ⟨?_, ?_⟩
  · grind [State.step, State.Before]
  · cases e <;> constructor <;> grind [State.step, State.Before]

theorem State.Open.enter (hs : s.Open) (h : s.step .enter = .ok s') : s'.Ahead := by
  obtain ⟨hbefore, hunlocked, hunsignalled, hrecorded⟩ := hs
  constructor <;> grind [State.step, State.Before]

theorem State.Open.lock (hs : s.Open) (h : s.step .lock = .ok s') : s'.Passed := by
  obtain ⟨hbefore, hunlocked, hunsignalled, hrecorded⟩ := hs
  constructor <;> grind [State.step, State.Before]

def State.Timely (s : State) (e : Event) : Prop := e = .wait → ¬ (s.recorded ∧ s.signalled)

def State.InTurn (s : State) (e : Event) : Prop := e = .lock → ¬ s.Before

instance : Decidable s.Before :=
  inferInstanceAs (Decidable (s.invoker ∈ [.calling, .registered, .offered]))

theorem State.Passed.not_timely (hs : s.Passed) (hrun : runSteps State.step s es = .ok t)
    (hwait : .wait ∈ es) : ¬ EachStep State.step State.Timely s es := by
  induction es generalizing s with
  | nil => cases hwait
  | cons e es ih =>
    obtain ⟨s₁, hs₁, hrun⟩ := runSteps_cons_eq_ok.mp hrun
    rw [eachStep_cons_of_ok hs₁]
    rintro ⟨htimely, heach⟩
    by_cases he : e = .wait
    · -- the wait begins inside the block, where the signal has been given
      subst he
      have hinside : s.invoker = .inside := by grind [State.step]
      have hsignalled : s.signalled := by grind [hs.before_or, State.Before]
      exact htimely rfl ⟨hs.recorded, hsignalled⟩
    · exact ih (hs.step he hs₁) hrun ((List.mem_cons.mp hwait).resolve_left (Ne.symm he)) heach

theorem State.Ahead.timely (hs : s.Ahead) (hrun : runSteps State.step s es = .ok t) :
    EachStep State.step State.Timely s es ∧ EachStep State.step State.InTurn s es := by
  induction es generalizing s with
  | nil => exact ⟨trivial, trivial⟩
  | cons e es ih =>
    obtain ⟨s₁, hs₁, hrun⟩ := runSteps_cons_eq_ok.mp hrun
    rw [eachStep_cons_of_ok hs₁, eachStep_cons_of_ok hs₁]
    obtain ⟨htimely, hturn⟩ := ih (hs.step hs₁) hrun
    refine ⟨⟨fun he => ?_, htimely⟩, fun _ => hs.not_before, hturn⟩
    have hinside : s.invoker = .inside := by grind [State.step]
    simp [(hs.unsignalled hinside).1]

theorem State.Open.timely_iff (hs : s.Open) (hrun : runSteps State.step s es = .ok t)
    (hwait : .wait ∈ es) :
    EachStep State.step State.Timely s es ↔ EachStep State.step State.InTurn s es := by
  induction es generalizing s with
  | nil => cases hwait
  | cons e es ih =>
    obtain ⟨s₁, hs₁, hrun₁⟩ := runSteps_cons_eq_ok.mp hrun
    rw [eachStep_cons_of_ok hs₁, eachStep_cons_of_ok hs₁]
    by_cases hlock : e = .lock
    · subst hlock
      have hwait' := (List.mem_cons.mp hwait).resolve_left nofun
      exact iff_of_false (fun h => (hs.lock hs₁).not_timely hrun₁ hwait' h.2)
        fun h => h.1 rfl hs.before
    · by_cases henter : e = .enter
      · subst henter
        obtain ⟨htimely, hturn⟩ := (hs.enter hs₁).timely hrun₁
        exact iff_of_true ⟨nofun, htimely⟩ ⟨nofun, hturn⟩
      · obtain ⟨hne, hopen⟩ := hs.step hlock henter hs₁
        have hwait' := (List.mem_cons.mp hwait).resolve_left (Ne.symm hne)
        exact and_congr (iff_of_true (fun h => absurd h hne) fun h => absurd h hlock)
          (ih hopen hrun₁ hwait')

/-- **The wait of a call begins in time just if the lock is taken in turn**: in a run in which the
invoker begins to wait, the response has not been recorded and signalled before, just if the
selector thread took the lock of the context after the invoker. -/
theorem wait_in_time_iff (hrun : runSteps State.step .new es = .ok t) (hwait : .wait ∈ es) :
    EachStep State.step (fun s e => e = .wait → ¬ (s.recorded ∧ s.signalled)) .new es ↔
      EachStep State.step (fun s e => e = .lock → ¬ s.Before) .new es :=
  State.Open.timely_iff ⟨by decide, by decide, rfl, nofun⟩ hrun hwait

theorem wait_in_time_before_response :
    EachStep State.step (fun s e => e = .wait → ¬ (s.recorded ∧ s.signalled)) .new
      [.put, .offer, .enter, .wait, .write, .respond, .remove, .record, .lock, .notify] :=
  (wait_in_time_iff rfl (by decide)).mpr (by decide)

theorem wait_after_response :
    ∃ s t, runSteps State.step .new
        [.put, .offer, .write, .respond, .remove, .record, .lock, .notify, .unlock, .enter] =
          .ok s ∧
      s.step .wait = .ok t ∧ s.recorded ∧ s.signalled :=
  ⟨_, _, rfl, rfl, rfl, rfl⟩

end Icm.Java.LongInvoke
