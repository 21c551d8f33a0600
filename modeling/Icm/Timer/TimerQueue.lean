import Icm.Timer.Cancel

/-!
# Runs of the timer queue

The operations on the timer heap one after the other, from a heap that was made with any number of
slots.
-/

namespace Icm.Timer

open Icm.Lib Icm.Lib.Heap TimerHeap

variable {τ ρ : Type} [DecidableEq τ]

structure TimerQueue (τ ρ : Type) where
  heap : TimerHeap τ ρ
  out : List (TimerNode τ ρ)
  deriving DecidableEq, Repr

/-- The operations on a queue. -/
inductive Operation (τ ρ : Type)
  | schedule (type : τ) (act : ρ) (futureTime interval : TimeValue)
  | cancel (timerId : ℤ)
  | cancelType (type : τ)
  | removeFirst
  | takeOut (timerId : ℤ)
  | reschedule (i : ℕ) (timerValue : TimeValue)
  | freeNode (i : ℕ)
  | resetInterval (timerId : ℤ) (interval : TimeValue)
  deriving DecidableEq, Repr

namespace TimerQueue

def new (size : ℕ) : TimerQueue τ ρ := ⟨.new size, []⟩

variable (q : TimerQueue τ ρ)

def takeSlot (slot : ℕ) : Except Fault (TimerQueue τ ρ) := do
  let r ← q.heap.remove slot
  return ⟨r.2, r.1 :: q.out⟩

def step : Operation τ ρ → Except Fault (TimerQueue τ ρ)
  | .schedule type act futureTime interval => do
    let r ← q.heap.scheduleI type act futureTime interval
    return { q with heap := r.2 }
  | .cancel timerId => do
    let r ← q.heap.cancel (fun _ h => .ok h) timerId
    return { q with heap := r.2 }
  | .cancelType type => do
    let r ← q.heap.cancelType (fun _ h => .ok h) q.heap.cancelRounds type
    return { q with heap := r.2 }
  | .removeFirst => if q.heap.isEmpty then .ok q else q.takeSlot 0
  | .takeOut timerId => do
    match ← q.heap.slotOf timerId with
    | none => .ok q
    | some slot => q.takeSlot slot
  | .reschedule i timerValue =>
    match q.out[i]? with
    | none => .ok q
    | some x => do
      let h ← q.heap.reschedule { x with timerValue := timerValue }
      return ⟨h, q.out.eraseIdx i⟩
  | .freeNode i =>
    match q.out[i]? with
    | none => .ok q
    | some x => do
      let h ← q.heap.freeNode x
      return ⟨h, q.out.eraseIdx i⟩
  | .resetInterval timerId interval => do
    let r ← q.heap.resetInterval timerId interval
    return { q with heap := r.2 }

def run (ops : List (Operation τ ρ)) : Except Fault (TimerQueue τ ρ) :=
  runSteps step q ops

def Within : Operation τ ρ → Prop
  | .schedule .. => q.heap.makeRoom.mMaxSize < 2 ^ 31
  | .cancel timerId | .takeOut timerId | .resetInterval timerId _ => timerId ≠ q.heap.mMaxSize
  | _ => True

def Keeps (q q' : TimerQueue τ ρ) : Prop :=
  Sound q'.out q'.heap ∧ (q.heap.Exact → q'.heap.Exact)

variable {q : TimerQueue τ ρ}

omit [DecidableEq τ] in
theorem keeps_takeSlot (hs : Sound q.out q.heap) {slot : ℕ} {x : TimerNode τ ρ}
    (hx : q.heap.mHeap[slot]? = some x) : ∃ q', q.takeSlot slot = .ok q' ∧ q.Keeps q' := by
  obtain ⟨h', hremove, hr⟩ := hs.valid.remove hx
  exact ⟨⟨h', x :: q.out⟩, bind_eq_ok.mpr ⟨_, hremove, rfl⟩, hs.of_removed hr,
    hs.exact_of_removed hr⟩

omit [DecidableEq τ] in
theorem sound_cons (hs : Sound q.out q.heap) {i : ℕ} {x : TimerNode τ ρ}
    (hx : q.out[i]? = some x) : Sound (x :: q.out.eraseIdx i) q.heap := by
  obtain ⟨hi, rfl⟩ := List.getElem?_eq_some_iff.mp hx
  exact hs.perm (List.getElem_cons_eraseIdx_perm hi).symm

omit [DecidableEq τ] in
theorem exists_or_forall_ne (h : TimerHeap τ ρ) (timerId : ℤ) :
    (∃ (slot : ℕ) (x : TimerNode τ ρ), h.mHeap[slot]? = some x ∧ timerId = x.timerId) ∨
      ∀ x ∈ h.mHeap, (x.timerId : ℤ) ≠ timerId := by
  by_cases hx : ∃ x ∈ h.mHeap, (x.timerId : ℤ) = timerId
  · obtain ⟨x, hx, hid⟩ := hx
    obtain ⟨slot, hslot⟩ := List.mem_iff_getElem?.mp hx
    exact .inl ⟨slot, x, hslot, hid.symm⟩
  · exact .inr (by simpa using hx)

theorem step_cases (hs : Sound q.out q.heap) (op : Operation τ ρ) :
    (∃ q', q.step op = .ok q' ∧ q.Keeps q') ∨ ¬ q.Within op ∧ ∃ f, q.step op = .error f := by
  cases op with
  | schedule type act futureTime interval =>
    by_cases hused : q.heap.mCurSize + q.heap.mCurLimbo < q.heap.mMaxSize
    · rcases hs.scheduleI hused type act futureTime interval with
        ⟨h', hschedule, -, -, hs', he⟩ | ⟨hschedule, hlarge⟩
      · exact .inl ⟨{ q with heap := h' }, bind_eq_ok.mpr ⟨_, hschedule, rfl⟩, hs', he⟩
      · refine .inr ⟨not_lt.mpr hlarge, .assertion, ?_⟩
        rw [step, hschedule]
        rfl
    · exact .inl ⟨q, bind_eq_ok.mpr ⟨(none, q.heap), if_neg hused, rfl⟩, hs, id⟩
  | cancel timerId =>
    rcases exists_or_forall_ne q.heap timerId with ⟨slot, x, hx, rfl⟩ | hne
    · obtain ⟨h', hcancel, -, hs', he⟩ := hs.cancel_of_mem (List.mem_of_getElem? hx)
      exact .inl ⟨{ q with heap := h' }, bind_eq_ok.mpr ⟨_, hcancel, rfl⟩, hs', he⟩
    · rw [step, hs.cancel_of_forall_ne _ hne]
      split_ifs with hmax
      · exact .inr ⟨fun h => h hmax, .outOfBounds, rfl⟩
      · exact .inl ⟨q, rfl, hs, id⟩
  | cancelType type =>
    obtain ⟨xs, h', hloop, -, -, -, hs', he⟩ := hs.cancelLoop_zero type le_rfl
    refine .inl ⟨{ q with heap := h' }, bind_eq_ok.mpr ⟨(xs.length, h'), ?_, rfl⟩, hs', he⟩
    exact bind_eq_ok.mpr ⟨_, hloop, rfl⟩
  | removeFirst =>
    rw [step]
    split_ifs with hempty
    · exact .inl ⟨q, rfl, hs, id⟩
    · rcases hheap : q.heap.mHeap with _ | ⟨x, rest⟩
      · exact absurd (by rw [isEmpty, mCurSize, hheap]; rfl) hempty
      · exact .inl (keeps_takeSlot hs (show q.heap.mHeap[0]? = some x by rw [hheap]; rfl))
  | takeOut timerId =>
    rcases exists_or_forall_ne q.heap timerId with ⟨slot, x, hx, rfl⟩ | hne
    · obtain ⟨q', htake, hkeeps⟩ := keeps_takeSlot hs hx
      exact .inl ⟨q', bind_eq_ok.mpr ⟨_, hs.slotOf_of_mem hx, htake⟩, hkeeps⟩
    · rw [step, hs.slotOf_of_forall_ne hne]
      split_ifs with hmax
      · exact .inr ⟨fun h => h hmax, .outOfBounds, rfl⟩
      · exact .inl ⟨q, rfl, hs, id⟩
  | reschedule i timerValue =>
    rw [step]
    cases hx : q.out[i]? with
    | none => exact .inl ⟨q, rfl, hs, id⟩
    | some x =>
      obtain ⟨h', hreschedule, -, hs', he⟩ := (sound_cons hs hx).reschedule
        (y := { x with timerValue := timerValue }) rfl
      exact .inl ⟨⟨h', q.out.eraseIdx i⟩, bind_eq_ok.mpr ⟨_, hreschedule, rfl⟩, hs', he⟩
  | freeNode i =>
    rw [step]
    cases hx : q.out[i]? with
    | none => exact .inl ⟨q, rfl, hs, id⟩
    | some x =>
      obtain ⟨h', hfree, hf⟩ := (sound_cons hs hx).freeNode
      exact .inl ⟨⟨h', q.out.eraseIdx i⟩, bind_eq_ok.mpr ⟨_, hfree, rfl⟩,
        (sound_cons hs hx).of_freed hf, (sound_cons hs hx).exact_of_freed hf⟩
  | resetInterval timerId interval =>
    rcases exists_or_forall_ne q.heap timerId with ⟨slot, x, hx, rfl⟩ | hne
    · exact .inl ⟨_, bind_eq_ok.mpr ⟨_, hs.resetInterval_of_mem interval hx, rfl⟩,
        hs.set_interval interval hx, fun he => he.set_node _ _⟩
    · rw [step, hs.resetInterval_of_forall_ne interval hne]
      split_ifs with hmax
      · exact .inr ⟨fun h => h hmax, .outOfBounds, rfl⟩
      · exact .inl ⟨q, rfl, hs, id⟩

variable {ops : List (Operation τ ρ)}

theorem keeps_of_run {q' : TimerQueue τ ρ} (hs : Sound q.out q.heap)
    (hrun : q.run ops = .ok q') : q.Keeps q' := by
  refine runSteps_invariant (I := fun q' => q.Keeps q') (C := fun _ _ => True)
    (fun q₁ op q₂ hkeeps _ hstep => ?_) ⟨hs, id⟩ (eachStep_true q ops) hrun
  obtain ⟨q₃, hstep₃, hkeeps₃⟩ | ⟨-, f, herror⟩ := step_cases hkeeps.1 op
  · obtain rfl := Except.ok.inj (hstep₃.symm.trans hstep)
    exact ⟨hkeeps₃.1, hkeeps₃.2 ∘ hkeeps.2⟩
  · rw [herror] at hstep
    cases hstep

theorem sound_of_run {size : ℕ} (hrun : (new size).run ops = .ok q) :
    Sound q.out q.heap :=
  (keeps_of_run (sound_new size) hrun).1

theorem exact_of_run {size : ℕ} (hsize : 2 ≤ size)
    (hrun : (new size).run ops = .ok q) : q.heap.Exact :=
  (keeps_of_run (sound_new size) hrun).2 (exact_new hsize)

theorem exists_run {size : ℕ}
    (hwithin : EachStep step Within (new size) ops) : ∃ q, (new size).run ops = .ok q := by
  have hstep (q : TimerQueue τ ρ) (op : Operation τ ρ) (hs : Sound q.out q.heap)
      (hop : q.Within op) : ∃ q', q.step op = .ok q' ∧ Sound q'.out q'.heap := by
    obtain ⟨q', hstep, hkeeps⟩ | ⟨hop', -⟩ := step_cases hs op
    · exact ⟨q', hstep, hkeeps.1⟩
    · exact absurd hop hop'
  obtain ⟨q, hrun, -⟩ := exists_runSteps (I := fun q : TimerQueue τ ρ => Sound q.out q.heap) hstep
    (sound_new size) hwithin
  exact ⟨q, hrun⟩

/-- The timers are a heap by their deadlines; the entry of each of them is its slot, and every entry
that is a slot is that of the timer there; and as many entries as `mCurLimbo` are `-2`. -/
structure Kept (h : TimerHeap τ ρ) : Prop where
  ordered : ∀ (i : ℕ) (x y : TimerNode τ ρ), h.mHeap[parent i]? = some x → h.mHeap[i]? = some y →
    x.timerValue ≤ y.timerValue
  slots : ∀ (slot : ℕ) (x : TimerNode τ ρ), h.mHeap[slot]? = some x →
    h.mTimerIds[x.timerId]? = some (slot : ℤ)
  timers : ∀ id slot : ℕ, h.mTimerIds[id]? = some (slot : ℤ) →
    ∃ x, h.mHeap[slot]? = some x ∧ x.timerId = id
  limbo : ((Finset.range h.mMaxSize).filter fun id => h.mTimerIds[id]? = some (-2)).card =
    h.mCurLimbo

omit [DecidableEq τ] in
theorem kept_of_exact {out : List (TimerNode τ ρ)} {h : TimerHeap τ ρ} (hs : Sound out h)
    (he : h.Exact) : Kept h where
  ordered := hs.valid.ordered
  slots := hs.valid.located
  timers id slot hslot := by
    obtain ⟨x, hx, rfl⟩ := hs.owned id slot hslot
    obtain ⟨slot', hslot'⟩ := List.mem_iff_getElem?.mp hx
    have hentry := hs.valid.located slot' x hslot'
    rw [hslot, Option.some.injEq, Int.ofNat_inj] at hentry
    exact ⟨x, hentry ▸ hslot', rfl⟩
  limbo := he.limbo

/-- **The heap and the table are kept.** -/
theorem run_kept (size : ℕ) (hsize : 2 ≤ size) (ops : List (Operation τ ρ)) :
    (∀ q : TimerQueue τ ρ, (new size).run ops = .ok q → Kept q.heap) ∧
      (EachStep step Within (new size) ops → ∃ q, (new size).run ops = .ok q) :=
  ⟨fun _ hrun => kept_of_exact (sound_of_run hrun) (exact_of_run hsize hrun), exists_run⟩

def sampleOps : List (Operation ℕ Unit) :=
  [.schedule 7 () ⟨5, 0⟩ ⟨0, 0⟩, .schedule 8 () ⟨3, 0⟩ ⟨1, 0⟩, .schedule 7 () ⟨4, 0⟩ ⟨0, 0⟩,
    .removeFirst, .reschedule 0 ⟨6, 0⟩, .removeFirst, .cancel 1, .resetInterval 2 ⟨2, 0⟩]

def sampleQueue : TimerQueue ℕ Unit where
  heap :=
    { mHeap := [⟨8, (), ⟨6, 0⟩, ⟨2, 0⟩, 2⟩]
      mTimerIds := [-1, -1, 0, -2, -5, -6, -7, -8]
      mCurLimbo := 1
      mTimerIdsCurr := 3
      mTimerIdsMinFree := 1 }
  out := [⟨7, (), ⟨4, 0⟩, ⟨0, 0⟩, 3⟩]

theorem run_sample : (new 2).run sampleOps = .ok sampleQueue := by decide +kernel

theorem run_kept_sample : 2 ≤ 2 ∧ Kept sampleQueue.heap :=
  ⟨le_rfl, (run_kept 2 le_rfl sampleOps).1 sampleQueue run_sample⟩

/-- **A new timer gets an id of its own.** -/
theorem scheduleI_fresh (size : ℕ) (hsize : 2 ≤ size) (ops : List (Operation τ ρ))
    (q : TimerQueue τ ρ) (hrun : (new size).run ops = .ok q) (type : τ) (act : ρ)
    (futureTime interval : TimeValue) :
    ∃ id, id < q.heap.mMaxSize ∧ (∀ x ∈ q.heap.mHeap ++ q.out, x.timerId ≠ id) ∧
      ((∃ h', q.heap.scheduleI type act futureTime interval = .ok (some id, h') ∧
          h'.mHeap.Perm (⟨type, act, futureTime, interval, id⟩ :: q.heap.mHeap) ∧
          id < h'.mMaxSize) ∨
        q.heap.scheduleI type act futureTime interval = .error .assertion ∧
          2 ^ 31 ≤ q.heap.makeRoom.mMaxSize) := by
  have hs := sound_of_run hrun
  have hroom := (exact_of_run hsize hrun).room
  have hused : q.heap.mCurSize + q.heap.mCurLimbo < q.heap.mMaxSize := by
    rw [HasRoom] at hroom
    omega
  have hp := hs.popFreelist hused
  have hlt := hs.popFreelist_lt hroom
  obtain ⟨curr, minFree, heq, -⟩ := hs.popFreelist_cases (by omega)
  refine ⟨q.heap.popFreelist.1, hlt, fun x hx => ?_, ?_⟩
  · rcases List.mem_append.mp hx with hx | hx
    · exact hp.fresh x (by rw [heq]; exact hx)
    · exact hp.fresh_out x hx
  · refine (hs.scheduleI hused type act futureTime interval).imp_left ?_
    rintro ⟨h', hschedule, hperm, hle, -⟩
    exact ⟨h', hschedule, hperm, hlt.trans_le hle⟩

theorem scheduleI_fresh_sample : ∃ id, id < 8 ∧ id ≠ 2 ∧ id ≠ 3 ∧
    ((∃ h', sampleQueue.heap.scheduleI 9 () ⟨5, 0⟩ ⟨0, 0⟩ = .ok (some id, h')) ∨
      2 ^ 31 ≤ sampleQueue.heap.makeRoom.mMaxSize) := by
  obtain ⟨id, hlt, hne, hschedule⟩ :=
    scheduleI_fresh 2 le_rfl sampleOps sampleQueue run_sample 9 () ⟨5, 0⟩ ⟨0, 0⟩
  refine ⟨id, hlt, (hne _ List.mem_cons_self).symm, ?_, ?_⟩
  · exact (hne _ (List.mem_cons_of_mem _ List.mem_cons_self)).symm
  · exact hschedule.imp (fun ⟨h', hh', _⟩ => ⟨h', hh'⟩) And.right

def CancelsRight (h : TimerHeap τ ρ) (timerId : ℤ) : Prop :=
  (∀ x ∈ h.mHeap, (x.timerId : ℤ) = timerId →
      ∃ h', h.cancel (fun _ h => .ok h) timerId = .ok (some x.act, h') ∧ h.Cancelled [x] h' ∧
        h'.Valid) ∧
    ((∀ x ∈ h.mHeap, (x.timerId : ℤ) ≠ timerId) →
      h.cancel (fun _ h => .ok h) timerId = .ok (none, h))

def ResetsRight (h : TimerHeap τ ρ) (timerId : ℤ) : Prop :=
  ∀ interval : TimeValue,
    (∀ (slot : ℕ) (x : TimerNode τ ρ), h.mHeap[slot]? = some x → (x.timerId : ℤ) = timerId →
      h.resetInterval timerId interval =
        .ok (true, { h with mHeap := h.mHeap.set slot { x with interval := interval } })) ∧
    ((∀ x ∈ h.mHeap, (x.timerId : ℤ) ≠ timerId) →
      h.resetInterval timerId interval = .ok (false, h))

/-- **Which ids are treated right.** -/
theorem cancel_right_iff (size : ℕ) (ops : List (Operation τ ρ)) (q : TimerQueue τ ρ)
    (hrun : (new size).run ops = .ok q) (timerId : ℤ) :
    CancelsRight q.heap timerId ∧ ResetsRight q.heap timerId ↔ timerId ≠ q.heap.mMaxSize := by
  have hs := sound_of_run hrun
  constructor
  · rintro ⟨⟨-, hnone⟩, -⟩ hmax
    have hne : ∀ x ∈ q.heap.mHeap, (x.timerId : ℤ) ≠ timerId := fun x hx hid => by
      have hlt : x.timerId < q.heap.mMaxSize := hs.valid.located.id_lt hx
      omega
    have hcancel := hnone hne
    rw [hs.cancel_of_forall_ne _ hne, if_pos hmax] at hcancel
    cases hcancel
  · intro hmax
    refine ⟨⟨?_, fun hne => ?_⟩, fun interval => ⟨?_, fun hne => ?_⟩⟩
    · rintro x hx rfl
      obtain ⟨h', hcancel, hc, hs', -⟩ := hs.cancel_of_mem hx
      exact ⟨h', hcancel, hc, hs'.valid⟩
    · rw [hs.cancel_of_forall_ne _ hne, if_neg hmax]
    · rintro slot x hx rfl
      exact hs.resetInterval_of_mem interval hx
    · rw [hs.resetInterval_of_forall_ne interval hne, if_neg hmax]

theorem cancel_right_sample :
    (2 : ℤ) ≠ sampleQueue.heap.mMaxSize ∧ CancelsRight sampleQueue.heap 2 ∧
      ResetsRight sampleQueue.heap 2 :=
  ⟨by decide, (cancel_right_iff 2 sampleOps sampleQueue run_sample 2).mpr (by decide)⟩

theorem cancel_outOfBounds :
    (TimerHeap.new 4 : TimerHeap ℕ Unit).cancel (fun _ h => .ok h) 4 = .error .outOfBounds ∧
      (TimerHeap.new 4 : TimerHeap ℕ Unit).resetInterval 4 ⟨1, 0⟩ = .error .outOfBounds ∧
      (new 4).run [] = .ok (⟨.new 4, []⟩ : TimerQueue ℕ Unit) ∧
      ¬ CancelsRight (TimerHeap.new 4 : TimerHeap ℕ Unit) 4 ∧
      ¬ ResetsRight (TimerHeap.new 4 : TimerHeap ℕ Unit) 4 := by
  have hcancel : (TimerHeap.new 4 : TimerHeap ℕ Unit).cancel (fun _ h => .ok h) 4 =
      .error .outOfBounds := by decide +kernel
  have hreset : (TimerHeap.new 4 : TimerHeap ℕ Unit).resetInterval 4 ⟨1, 0⟩ =
      .error .outOfBounds := by decide +kernel
  refine ⟨hcancel, hreset, rfl, fun h => ?_, fun h => ?_⟩
  · have hnone := hcancel.symm.trans (h.2 (by simp [TimerHeap.new]))
    cases hnone
  · have hnone := hreset.symm.trans ((h ⟨1, 0⟩).2 (by simp [TimerHeap.new]))
    cases hnone

/-- **The timers of a handler are cancelled.** -/
theorem cancelType_cancels (size : ℕ) (ops : List (Operation τ ρ)) (q : TimerQueue τ ρ)
    (hrun : (new size).run ops = .ok q) (type : τ)
    (cancellation : τ → TimerHeap τ ρ → Except Fault (TimerHeap τ ρ)) (rounds : ℕ)
    (hrounds : q.heap.cancelRounds ≤ rounds) :
    ∃ h', q.heap.cancelType cancellation rounds type = (cancellation type h').map
        (Prod.mk (q.heap.mHeap.filter (·.type = type)).length) ∧
      h'.mHeap.Perm (q.heap.mHeap.filter (·.type ≠ type)) ∧
      (∀ x ∈ q.heap.mHeap, x.type = type → h'.mTimerIds[x.timerId]? = some (-1)) ∧
      (∀ x ∈ q.out, h'.mTimerIds[x.timerId]? = some (-2)) ∧ h'.Valid := by
  have hs := sound_of_run hrun
  obtain ⟨xs, h', hloop, hc, hxs, hnone, hs', -⟩ := hs.cancelLoop_zero type hrounds
  have hmatch : xs.Perm (q.heap.mHeap.filter (·.type = type)) := by
    have hfilter := hc.perm.filter (·.type = type)
    rwa [List.filter_append, List.filter_eq_self.mpr (by simpa using hxs),
      List.filter_eq_nil_iff.mpr (by simpa using hnone), List.append_nil] at hfilter
  have hother : h'.mHeap.Perm (q.heap.mHeap.filter (·.type ≠ type)) := by
    have hfilter := hc.perm.filter (·.type ≠ type)
    rwa [List.filter_append, List.filter_eq_nil_iff.mpr (by simpa using hxs),
      List.filter_eq_self.mpr (by simpa using hnone), List.nil_append] at hfilter
  refine ⟨h', ?_, hother, fun x hx htype => hc.freed x (hmatch.mem_iff.mpr ?_), hs'.entry,
    hs'.valid⟩
  · rw [cancelType, hloop, ← hmatch.length_eq]
    change (cancellation type h' >>= fun h => .ok (xs.length, h)) = _
    cases cancellation type h' <;> rfl
  · exact List.mem_filter.mpr ⟨hx, by simpa using htype⟩

theorem cancelType_sample : ∃ h',
    sampleQueue.heap.cancelType (fun _ h => .ok h) 4 8 = .ok (1, h') ∧ h'.mHeap = [] := by
  obtain ⟨h', hcancel, hperm, -⟩ := cancelType_cancels 2 sampleOps sampleQueue run_sample 8
    (fun _ h => .ok h) 4 (by decide)
  exact ⟨h', hcancel, hperm.eq_nil⟩

end TimerQueue

end Icm.Timer
