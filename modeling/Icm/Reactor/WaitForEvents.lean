import Icm.Reactor.SelectReactor
import Icm.Timer.TimeValue

/-!
# Waiting for events

The method `waitForMultipleEvents` of class `SelectReactor` in `icc/SelectReactor.cpp`.
-/

namespace Icm.Reactor

open Icm.Lib Icm.Timer SelectReactorHandleSet

def eintr : ℤ := 4

structure SelectCall where
  width : ℤ
  masks : EventType → Option (BitWords 64 16)
  timeout : Option TimeValue

/-- What a call of `select` returns, the error number after it, and what it writes to the masks. -/
structure SelectAnswer where
  result : ℤ
  errno : ℤ
  masks : EventType → BitWords 64 16

def SelectAnswer.Interrupted (a : SelectAnswer) : Prop := a.result = -1 ∧ a.errno = eintr

instance (a : SelectAnswer) : Decidable a.Interrupted :=
  inferInstanceAs (Decidable (_ ∧ _))

def SelectAnswer.Within (a : SelectAnswer) (call : SelectCall) : Prop :=
  ∀ e m i, call.masks e = some m → (a.masks e).bit i = true → m.bit i = true

def HandleSet.overwrite (s : HandleSet) (mask : BitWords 64 16) : HandleSet :=
  if s.mSize > 0 then { s with mMask := mask } else s

def SelectReactorHandleSet.overwrite (s : SelectReactorHandleSet)
    (masks : EventType → BitWords 64 16) : SelectReactorHandleSet :=
  ⟨s.rdMask.overwrite (masks .read), s.wrMask.overwrite (masks .write),
    s.exMask.overwrite (masks .except)⟩

theorem SelectReactorHandleSet.of_overwrite (s : SelectReactorHandleSet)
    (masks : EventType → BitWords 64 16) (e : EventType) :
    (s.overwrite masks).of e = (s.of e).overwrite (masks e) := by
  cases e <;> rfl

variable {η : Type}

/-- What `waitForMultipleEvents` returns and leaves, and the number of its calls of `select`. -/
structure Waited (η : Type) where
  numActiveHandles : ℤ
  reactor : SelectReactor η
  calls : ℕ

namespace SelectReactor

def selectCall (r : SelectReactor η) (timeout : Option TimeValue) : SelectCall :=
  ⟨r.maxHandleP1, fun e => (r.waitSet.of e).fdset, timeout⟩

def collect (r : SelectReactor η) (answer : SelectAnswer) : Except Fault (SelectReactor η) :=
  let dispatchSet := r.waitSet.overwrite answer.masks
  if answer.result > 0 then do
    let dispatchSet ← dispatchSet.update fun _ s => s.sync r.maxHandleP1
    .ok { r with dispatchSet }
  else if answer.result = -1 then .ok { r with dispatchSet := .reset }
  else .ok { r with dispatchSet }

/-- `waitForMultipleEvents`, from a turn of the loop on. -/
def waitFrom (r : SelectReactor η) (timerQueue : Option (ℕ → Option TimeValue))
    (select : ℕ → SelectCall → SelectAnswer) : ℕ → ℕ → Except Fault (Option (Waited η))
  | 0, _ => .ok none
  | t + 1, turn =>
    match timerQueue with
    | none => .ok (some ⟨0, r, turn⟩)
    | some timeout =>
      let answer := select turn (r.selectCall (timeout turn))
      if answer.result = -1 ∧ answer.errno ≠ eintr then waitFrom r timerQueue select t (turn + 1)
      else do
        let r ← r.collect answer
        .ok (some ⟨answer.result, r, turn + 1⟩)

def waitForMultipleEvents (r : SelectReactor η) (timerQueue : Option (ℕ → Option TimeValue))
    (select : ℕ → SelectCall → SelectAnswer) (turns : ℕ) : Except Fault (Option (Waited η)) :=
  r.waitFrom timerQueue select turns 0

variable {r : SelectReactor η} {timeout : ℕ → Option TimeValue}
  {select : ℕ → SelectCall → SelectAnswer}

def answerOf (r : SelectReactor η) (timeout : ℕ → Option TimeValue)
    (select : ℕ → SelectCall → SelectAnswer) (turn : ℕ) : SelectAnswer :=
  select turn (r.selectCall (timeout turn))

theorem exists_collect (r : SelectReactor η) (answer : SelectAnswer) :
    ∃ r', r.collect answer = .ok r' ∧
      (answer.result = -1 → ∀ e, r'.dispatchSet.of e = .reset) := by
  rw [collect]
  split_ifs with hpos herr
  · obtain ⟨dispatchSet, hset⟩ := exists_update
      (f := fun _ s => s.sync r.maxHandleP1) (s := r.waitSet.overwrite answer.masks) fun e => by
        obtain ⟨s', hs', -⟩ := HandleSet.exists_sync
          (s := (r.waitSet.overwrite answer.masks).of e) r.width_le
        exact ⟨s', hs'⟩
    exact ⟨_, bind_eq_ok.mpr ⟨dispatchSet, hset, rfl⟩, fun h => by omega⟩
  · exact ⟨_, rfl, fun _ e => of_reset e⟩
  · exact ⟨_, rfl, fun h => absurd h herr⟩

/-- Only interrupted calls of `select` are made again: `waitForMultipleEvents` returns what the
first other call returns, with empty dispatch sets if this call failed, and goes on if there is no
such call. -/
def RetriesRight (r : SelectReactor η) (timeout : ℕ → Option TimeValue)
    (select : ℕ → SelectCall → SelectAnswer) : Prop :=
  (∀ n, (∀ k < n, (r.answerOf timeout select k).Interrupted) →
    ¬ (r.answerOf timeout select n).Interrupted →
      ∃ w, r.waitForMultipleEvents (some timeout) select (n + 1) = .ok (some w) ∧
        w.calls = n + 1 ∧ w.numActiveHandles = (r.answerOf timeout select n).result ∧
        (w.numActiveHandles = -1 → ∀ e, w.reactor.dispatchSet.of e = .reset)) ∧
  ((∀ k, (r.answerOf timeout select k).Interrupted) →
    ∀ n, r.waitForMultipleEvents (some timeout) select n = .ok none)

theorem exists_waitFrom (r : SelectReactor η) (timeout : ℕ → Option TimeValue)
    (select : ℕ → SelectCall → SelectAnswer) (turn : ℕ)
    (h : ¬ ((r.answerOf timeout select turn).result = -1 ∧
      (r.answerOf timeout select turn).errno ≠ eintr)) (t : ℕ) :
    ∃ w, r.waitFrom (some timeout) select (t + 1) turn = .ok (some w) ∧ w.calls = turn + 1 ∧
      w.numActiveHandles = (r.answerOf timeout select turn).result ∧
      (w.numActiveHandles = -1 → ∀ e, w.reactor.dispatchSet.of e = .reset) := by
  obtain ⟨r', hr', hreset⟩ := r.exists_collect (r.answerOf timeout select turn)
  refine ⟨⟨(r.answerOf timeout select turn).result, r', turn + 1⟩, ?_, rfl, rfl, hreset⟩
  exact (if_neg h).trans (bind_eq_ok.mpr ⟨r', hr', rfl⟩)

theorem waitFrom_succ {turn : ℕ} (r : SelectReactor η) (timeout : ℕ → Option TimeValue)
    (select : ℕ → SelectCall → SelectAnswer)
    (h : (r.answerOf timeout select turn).result = -1 ∧
      (r.answerOf timeout select turn).errno ≠ eintr) (t : ℕ) :
    r.waitFrom (some timeout) select (t + 1) turn =
      r.waitFrom (some timeout) select t (turn + 1) :=
  if_pos h

theorem waitFrom_eq_none (r : SelectReactor η) (timeout : ℕ → Option TimeValue)
    (select : ℕ → SelectCall → SelectAnswer)
    (h : ∀ k, (r.answerOf timeout select k).result = -1 ∧
      (r.answerOf timeout select k).errno ≠ eintr) (t turn : ℕ) :
    r.waitFrom (some timeout) select t turn = .ok none := by
  induction t generalizing turn with
  | zero => rfl
  | succ t ih =>
    rw [waitFrom_succ r timeout select (h turn)]
    exact ih (turn + 1)

/-- Only interrupted calls of `select` are made again, and other errors are reported, exactly if the
first call does not fail. -/
theorem retries_right_iff (r : SelectReactor η) (timeout : ℕ → Option TimeValue)
    (select : ℕ → SelectCall → SelectAnswer) :
    r.RetriesRight timeout select ↔ (r.answerOf timeout select 0).result ≠ -1 := by
  constructor
  · rintro ⟨hfirst, hall⟩ herr
    by_cases hintr : (r.answerOf timeout select 0).errno = eintr
    · -- the interrupted call is the last one
      have hone (t : ℕ) := exists_waitFrom r timeout select 0 (fun h => h.2 hintr) t
      by_cases hex : ∃ n, ¬ (r.answerOf timeout select n).Interrupted
      · obtain ⟨n, hn, hmin⟩ := WellFounded.has_min Nat.lt_wfRel.wf _ hex
        obtain ⟨w, hw, hcalls, -⟩ := hfirst n (fun k hk => by
          by_contra hnot
          exact hmin k hnot hk) hn
        obtain ⟨w', hw', hcalls', -⟩ := hone n
        obtain rfl : w = w' := Option.some.inj (Except.ok.inj (hw.symm.trans hw'))
        obtain rfl : n = 0 := by omega
        exact hn ⟨herr, hintr⟩
      · push Not at hex
        obtain ⟨w, hw, -⟩ := hone 0
        cases (hall hex 1).symm.trans hw
    · -- the call that failed is not the last one
      obtain ⟨w, hw, -⟩ := hfirst 0 (fun k hk => by omega) fun h => hintr h.2
      have hgo : r.waitForMultipleEvents (some timeout) select 1 = .ok none :=
        waitFrom_succ r timeout select ⟨herr, hintr⟩ 0
      cases hgo.symm.trans hw
  · intro hok
    refine ⟨fun n hbefore _ => ?_, fun hall => absurd (hall 0).1 hok⟩
    obtain rfl : n = 0 := by
      by_contra hn
      exact hok (hbefore 0 (by omega)).1
    exact exists_waitFrom r timeout select 0 (fun h => hok h.1) 0

theorem retries_wrong :
    (∃ w, (new : SelectReactor ℕ).waitForMultipleEvents (some fun _ => none)
        (fun turn _ => if turn = 0 then ⟨-1, eintr, fun _ => .empty⟩ else ⟨1, 0, fun _ => .empty⟩)
        1 = .ok (some w) ∧ w.numActiveHandles = -1) ∧
      ¬ ∃ n w, (new : SelectReactor ℕ).waitForMultipleEvents (some fun _ => none)
        (fun _ _ => ⟨-1, 9, fun _ => .empty⟩) n = .ok (some w) := by
  refine ⟨⟨_, rfl, rfl⟩, ?_⟩
  rintro ⟨n, w, hw⟩
  have hnone : (new : SelectReactor ℕ).waitForMultipleEvents (some fun _ => none)
      (fun _ _ => ⟨-1, 9, fun _ => .empty⟩) n = .ok none :=
    waitFrom_eq_none new (fun _ => none) (fun _ _ => ⟨-1, 9, fun _ => .empty⟩)
      (fun _ => ⟨rfl, show (9 : ℤ) ≠ 4 by decide⟩) n 0
  cases hnone.symm.trans hw

theorem has_of_overwrite {answer : SelectAnswer} {timeout : Option TimeValue} {e : EventType}
    {g : ℤ} (hans : answer.Within (r.selectCall timeout))
    (h : ((r.waitSet.of e).overwrite (answer.masks e)).has g = true) :
    (r.waitSet.of e).has g = true := by
  rw [HandleSet.overwrite] at h
  split_ifs at h with hsize
  · obtain ⟨i, -, rfl⟩ := HandleSet.exists_of_has h
    rw [HandleSet.has_natCast] at h ⊢
    exact hans e _ i (if_pos hsize) h
  · exact h

theorem collect_spec {r' : SelectReactor η} {answer : SelectAnswer} {timeout : Option TimeValue}
    (hr : r.Registered) (hans : answer.Within (r.selectCall timeout)) (hpos : 0 < answer.result)
    (h : r.collect answer = .ok r') :
    r' = { r with dispatchSet := r'.dispatchSet } ∧ ∀ e, (r'.dispatchSet.of e).MaxKnown ∧
      ∀ g, (r'.dispatchSet.of e).has g = true → (r.waitSet.of e).has g = true := by
  rw [collect, if_pos hpos] at h
  obtain ⟨dispatchSet, hset, h⟩ := bind_eq_ok.mp h
  cases h
  refine ⟨rfl, fun e => ?_⟩
  have hsync := update_eq_ok.mp hset e
  rw [of_overwrite] at hsync
  obtain ⟨s, hs, hmask, hknown⟩ :=
    HandleSet.exists_sync (s := (r.waitSet.of e).overwrite (answer.masks e)) r.width_le
  obtain rfl : s = dispatchSet.of e := Except.ok.inj (hs.symm.trans hsync)
  refine ⟨hknown fun g hg => (hr e g (has_of_overwrite hans hg)).2, fun g hg => ?_⟩
  refine has_of_overwrite hans ?_
  rwa [HandleSet.has, ← hmask]

theorem exists_answer {timerQueue : Option (ℕ → Option TimeValue)} {t turn : ℕ} {w : Waited η}
    (h : r.waitFrom timerQueue select t turn = .ok (some w)) (hpos : 0 < w.numActiveHandles) :
    ∃ k timeout, r.collect (select k (r.selectCall timeout)) = .ok w.reactor ∧
      (select k (r.selectCall timeout)).result = w.numActiveHandles := by
  induction t generalizing turn with
  | zero => cases h
  | succ t ih =>
    cases timerQueue with
    | none =>
      obtain rfl := Option.some.inj (Except.ok.inj h)
      cases hpos
    | some timeout =>
      rw [waitFrom] at h
      split_ifs at h with hretry
      · exact ih h
      · obtain ⟨r', hr', h⟩ := bind_eq_ok.mp h
        obtain rfl := Option.some.inj (Except.ok.inj h)
        exact ⟨turn, timeout turn, hr', rfl⟩

end SelectReactor

end Icm.Reactor
