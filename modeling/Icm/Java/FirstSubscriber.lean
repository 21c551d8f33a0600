import Mathlib.Logic.Relation
import Mathlib.Data.Set.Subsingleton

/-!
# The subscriptions of the first subscriber

An answer names its topic but not its request. It adds the topic to the subscribed ones, or removes
it if it is there.
-/

namespace Icm.Java.FirstSubscriber

open Function List Relation

/-- Where a thread is in `subscribe` or `unsubscribe`: it has still to write the request, or it
waits for a notification of the action. -/
inductive Phase
  | idle
  | calling (subscribe : Bool) (topicId : String) (action : ℕ)
  | waiting (action : ℕ)
  deriving DecidableEq

/-- The subscriber, the topics that are subscribed at the broker and the answers on their way. -/
structure State where
  actionMap : String → Option ℕ
  subscribed : String → Bool
  broker : String → Bool
  answers : List String
  threads : ℕ → Phase

namespace State

def new : State := ⟨fun _ => none, fun _ => false, fun _ => false, [], fun _ => .idle⟩

/-- The begin of `subscribe` or `unsubscribe`, up to the write. -/
def call (s : State) (i : ℕ) (subscribe : Bool) (t : String) (action : ℕ) : State :=
  if s.subscribed t = subscribe then s
  else if subscribe then
    { s with
      actionMap := update s.actionMap t action
      threads := update s.threads i (.calling true t action) }
  else
    match s.actionMap t with
    | none => s -- `NullPointerException`
    | some action => { s with threads := update s.threads i (.calling false t action) }

/-- A thread writes its request, which the broker serves and answers, and waits. -/
def write (s : State) (i : ℕ) : State :=
  match s.threads i with
  | .calling subscribe t action =>
    { s with
      broker := update s.broker t subscribe
      answers := s.answers ++ [t]
      threads := update s.threads i (.waiting action) }
  | _ => s

/-- `notify` of the action, if there is one, reaches thread `i` if that waits for it. -/
def notify (s : State) (i : ℕ) (action : Option ℕ) : ℕ → Phase :=
  if action.map .waiting = some (s.threads i) then update s.threads i .idle else s.threads

/-- `read` of an answer. -/
def read (s : State) (i : ℕ) : State :=
  match s.answers with
  | [] => s
  | t :: answers =>
    let threads := s.notify i (s.actionMap t)
    if s.subscribed t then
      { s with
        actionMap := update s.actionMap t none
        subscribed := update s.subscribed t false
        answers, threads }
    else { s with subscribed := update s.subscribed t true, answers, threads }

/-- A new connection, on which the topics are subscribed in some order. -/
def reconnect (s : State) (topics : List String) : State :=
  { s with subscribed := fun _ => false, broker := fun t => t ∈ topics, answers := topics }

/-- The subscriber has the topics of the broker, each with an action. -/
def Agrees (s : State) : Prop :=
  s.subscribed = s.broker ∧ ∀ t, s.subscribed t = true → (s.actionMap t).isSome

end State

/-- A step of the callers, of the broker's answers or, if there are reconnects, of one. -/
inductive Step (callers : Set ℕ) (reconnects : Prop) (s : State) : State → Prop
  | call {i : ℕ} (hi : i ∈ callers) (hidle : s.threads i = .idle) (subscribe : Bool) (t : String)
      (action : ℕ) : Step callers reconnects s (s.call i subscribe t action)
  | write (i : ℕ) : Step callers reconnects s (s.write i)
  | read (i : ℕ) : Step callers reconnects s (s.read i)
  | reconnect (h : reconnects) {topics : List String} (hnodup : topics.Nodup)
      (hmem : ∀ t, t ∈ topics ↔ (s.actionMap t).isSome) :
      Step callers reconnects s (s.reconnect topics)

/-- At most one request is on its way, and then all callers wait. -/
structure Orderly (callers : Set ℕ) (s : State) : Prop where
  actions : ∀ t, s.subscribed t = true → (s.actionMap t).isSome
  mem_callers : ∀ i, s.threads i ≠ .idle → i ∈ callers
  of_calling : ∀ i subscribe t action, s.threads i = .calling subscribe t action →
    s.answers = [] ∧ s.subscribed t = !subscribe ∧ (s.actionMap t).isSome
  requests : s.answers = [] ∧ s.subscribed = s.broker ∨
    ∃ t, s.answers = [t] ∧ s.broker = update s.subscribed t (!s.subscribed t) ∧
      (s.actionMap t).isSome ∧ ∀ i ∈ callers, ∃ action, s.threads i = .waiting action

variable {callers : Set ℕ} {reconnects : Prop} {s s' : State}

theorem notify_eq_or (s : State) (i : ℕ) (action : Option ℕ) (j : ℕ) :
    s.notify i action j = s.threads j ∨ s.notify i action j = .idle := by
  unfold State.notify
  split_ifs
  all_goals grind [update_apply]

theorem orderly_step (hone : callers.Subsingleton) (hnot : ¬ reconnects) (h : Orderly callers s)
    (hstep : Step callers reconnects s s') : Orderly callers s' := by
  obtain ⟨hactions, hmem, hcalling, hrequests⟩ := h
  cases hstep with
  | @call i hi hidle subscribe t action =>
    -- the only caller is idle, so no answer is on its way
    have heq (j : ℕ) (hj : j ∈ callers) : j = i := hone hj hi
    have hnil : s.answers = [] ∧ s.subscribed = s.broker := by grind
    unfold State.call
    split_ifs with hsame hsub
    · exact ⟨hactions, hmem, hcalling, hrequests⟩
    · refine ⟨?_, ?_, ?_, Or.inl hnil⟩
      all_goals grind [update_apply]
    · split
      next => exact ⟨hactions, hmem, hcalling, hrequests⟩
      next =>
        refine ⟨hactions, ?_, ?_, Or.inl hnil⟩
        all_goals grind [update_apply]
  | write i =>
    unfold State.write
    split
    next subscribe t action hphase =>
      have hi : i ∈ callers := hmem i (by rw [hphase]; nofun)
      have heq (j : ℕ) (hj : j ∈ callers) : j = i := hone hj hi
      obtain ⟨hnil, hne, hsome⟩ := hcalling i subscribe t action hphase
      refine ⟨hactions, ?_, ?_, Or.inr ⟨t, ?_, ?_, hsome, fun j hj =>
        ⟨action, heq j hj ▸ update_self ..⟩⟩⟩
      all_goals grind [update_apply]
    next => exact ⟨hactions, hmem, hcalling, hrequests⟩
  | read i =>
    unfold State.read
    split
    next => exact ⟨hactions, hmem, hcalling, hrequests⟩
    next t answers hanswers =>
      -- the answer is that of the one request, and makes up for the change at the broker
      have hthreads := notify_eq_or s i (s.actionMap t)
      dsimp only
      split_ifs with hsub
      all_goals
        refine ⟨?_, ?_, ?_, Or.inl ⟨?_, ?_⟩⟩
        all_goals grind [update_apply]
  | reconnect h => exact absurd h hnot

theorem orderly_of_run (hone : callers.Subsingleton) (hnot : ¬ reconnects)
    (hrun : ReflTransGen (Step callers reconnects) .new s) : Orderly callers s := by
  induction hrun with
  | refl => exact ⟨nofun, fun _ hi => absurd rfl hi, nofun, Or.inl ⟨rfl, rfl⟩⟩
  | tail _ hstep ih => exact orderly_step hone hnot ih hstep

theorem eq_new_of_run (hrun : ReflTransGen (Step ∅ reconnects) .new s) : s = .new := by
  induction hrun with
  | refl => rfl
  | tail _ hstep ih =>
    subst ih
    cases hstep with
    | call hi => exact absurd hi (Set.notMem_empty _)
    | write i => rfl
    | read i => rfl
    | reconnect _ _ hmem =>
      obtain rfl := eq_nil_iff_forall_not_mem.mpr fun t ht => absurd ((hmem t).mp ht) nofun
      simp [State.reconnect, State.new]

/-- Two threads may both find that a topic is not subscribed. -/
theorem exists_run_of_ne {i j : ℕ} (hi : i ∈ callers) (hj : j ∈ callers) (hne : i ≠ j) :
    ∃ s, ReflTransGen (Step callers reconnects) .new s ∧ s.answers = [] ∧ ¬ s.Agrees := by
  have h₁ : ReflTransGen (Step callers reconnects) .new (State.new.call i true "" 0) :=
    .single (.call hi rfl ..)
  have h₂ := h₁.tail (.call hj (by simp [State.call, State.new, hne.symm]) true "" 0)
  refine ⟨_, (((h₂.tail (.write i)).tail (.write j)).tail (.read i)).tail (.read j), ?_, ?_⟩
  · simp [State.call, State.new, State.write, State.read, hne, hne.symm]
  · rintro ⟨heq, -⟩
    replace heq := congrFun heq ""
    simp [State.call, State.new, State.write, State.read, hne, hne.symm] at heq

/-- A reconnect may come when the action is in the map and the request is not written yet. -/
theorem exists_run_of_reconnects {i : ℕ} (hi : i ∈ callers) (h : reconnects) :
    ∃ s, ReflTransGen (Step callers reconnects) .new s ∧ s.answers = [] ∧ ¬ s.Agrees := by
  have h₁ : ReflTransGen (Step callers reconnects) .new (State.new.call i true "" 0) :=
    .single (.call hi rfl ..)
  have hmem (t : String) : t ∈ [""] ↔ ((State.new.call i true "" 0).actionMap t).isSome := by
    by_cases heq : t = "" <;> simp [State.call, State.new, heq]
  have h₂ := h₁.tail (.reconnect h (by simp) hmem)
  refine ⟨_, ((h₂.tail (.write i)).tail (.read i)).tail (.read i), ?_, ?_⟩
  · simp [State.call, State.new, State.write, State.read, State.reconnect]
  · rintro ⟨heq, -⟩
    replace heq := congrFun heq ""
    simp [State.call, State.new, State.write, State.read, State.reconnect] at heq

end Icm.Java.FirstSubscriber
