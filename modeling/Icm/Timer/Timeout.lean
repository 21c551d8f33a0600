import Icm.Timer.Expire
import Icm.Timer.TimeArithmetic

/-!
# How long to wait for the next timer

The two methods `calculateTimeout` of class `TimerQueueT` in `icc/TimerQueue.cpp`.
-/

namespace Icm.Timer.TimerHeap

open Icm.Lib Icm.Lib.Heap TimeValue

variable {τ ρ : Type}

def calculateTimeout (h : TimerHeap τ ρ) (curTime : TimeValue) (maxWaitTime : Option TimeValue) :
    Except Fault (Option TimeValue) :=
  if h.isEmpty then .ok maxWaitTime
  else do
    let earliest ← h.earliestTime
    if earliest.gt curTime then
      match earliest.sub curTime, maxWaitTime with
      | none, _ => .error .overflow
      | some mTimeout, none => .ok (some mTimeout)
      | some mTimeout, some max => .ok (some (if max.gt mTimeout then mTimeout else max))
    else .ok (some zero)

def calculateTimeoutTo (h : TimerHeap τ ρ) (curTime : TimeValue)
    (maxWaitTime theTimeout : Option TimeValue) : Except Fault (Option TimeValue) :=
  match theTimeout with
  | none => .ok none
  | some _ =>
    if h.isEmpty then
      match maxWaitTime with
      | some max => .ok (some max)
      | none => .ok none
    else do
      let earliest ← h.earliestTime
      if earliest.gt curTime then
        match earliest.sub curTime with
        | none => .error .overflow
        | some delta =>
          match maxWaitTime with
          | none => .ok (some delta)
          | some max => if ¬ max.gt delta then .ok (some max) else .ok (some delta)
      else .ok (some zero)

theorem calculateTimeoutTo_eq (h : TimerHeap τ ρ) (curTime : TimeValue)
    (maxWaitTime : Option TimeValue) (buffer : TimeValue) :
    h.calculateTimeoutTo curTime maxWaitTime (some buffer) =
      h.calculateTimeout curTime maxWaitTime := by
  unfold calculateTimeoutTo calculateTimeout
  dsimp only
  split_ifs with hempty
  · cases maxWaitTime <;> rfl
  · congr 1
    funext earliest
    split_ifs with hgt
    · cases earliest.sub curTime with
      | none => rfl
      | some delta =>
        cases maxWaitTime with
        | none => rfl
        | some max =>
          dsimp only
          split_ifs <;> rfl
    · rfl

def untilDeadline (curTime : TimeValue) (x : TimerNode τ ρ) : ℤ :=
  max 0 (x.timerValue.micros - curTime.micros)

/-- The wait is the least of the time that is allowed and the times until the deadlines; there is
none only if neither is there. -/
structure IsLeastWait (h : TimerHeap τ ρ) (curTime : TimeValue)
    (maxWaitTime wait : Option TimeValue) : Prop where
  none_iff : wait = none ↔ maxWaitTime = none ∧ h.mHeap = []
  nonneg : ∀ w ∈ wait, 0 ≤ w.micros
  le_max : ∀ w ∈ wait, ∀ m ∈ maxWaitTime, w.micros ≤ m.micros
  le_deadline : ∀ w ∈ wait, ∀ x ∈ h.mHeap, w.micros ≤ untilDeadline curTime x
  attained : ∀ w ∈ wait, (∃ m ∈ maxWaitTime, w = m) ∨
    ∃ x ∈ h.mHeap, w.micros = untilDeadline curTime x

theorem micros_zero : zero.micros = 0 := (set_spec 0 0).2

variable {h : TimerHeap τ ρ} {maxWaitTime : Option TimeValue}

theorem isLeastWait_of_nil {curTime : TimeValue}
    (hheap : h.mHeap = [])
    (hmax : ∀ m ∈ maxWaitTime, 0 ≤ m.micros) : h.IsLeastWait curTime maxWaitTime maxWaitTime where
  none_iff := by simp [hheap]
  nonneg := hmax
  le_max w hw m hm := by
    obtain rfl := Option.some.inj (hw.symm.trans hm)
    exact le_rfl
  le_deadline := by simp [hheap]
  attained w hw := .inl ⟨w, hw, rfl⟩

theorem Valid.untilDeadline_le (hv : h.Valid) {x y : TimerNode τ ρ}
    (hx : h.mHeap[0]? = some x) (hy : y ∈ h.mHeap) (hxt : x.timerValue.Canonical)
    (hyt : y.timerValue.Canonical) (curTime : TimeValue) :
    untilDeadline curTime x ≤ untilDeadline curTime y := by
  obtain ⟨i, hi⟩ := List.mem_iff_getElem?.mp hy
  have hle := (hxt.le_iff hyt).mp (hv.ordered.first_le hx hi)
  exact max_le_max le_rfl (by omega)

theorem Valid.isLeastWait (hv : h.Valid) {curTime : TimeValue}
    {x : TimerNode τ ρ} {w : TimeValue}
    (hx : h.mHeap[0]? = some x) (htimers : ∀ x ∈ h.mHeap, x.timerValue.Canonical)
    (hnonneg : 0 ≤ w.micros) (hmax : ∀ m ∈ maxWaitTime, w.micros ≤ m.micros)
    (hle : w.micros ≤ untilDeadline curTime x)
    (hattained : maxWaitTime = some w ∨ w.micros = untilDeadline curTime x) :
    h.IsLeastWait curTime maxWaitTime (some w) := by
  have hmem : x ∈ h.mHeap := List.mem_of_getElem? hx
  refine ⟨?_, ?_, ?_, ?_, ?_⟩
  · refine iff_of_false (by simp) fun hnil => ?_
    rw [hnil.2] at hmem
    cases hmem
  · rintro _ ⟨⟩
    exact hnonneg
  · rintro _ ⟨⟩
    exact hmax
  · rintro _ ⟨⟩ y hy
    exact hle.trans (hv.untilDeadline_le hx hy (htimers x hmem) (htimers y hy) curTime)
  · rintro _ ⟨⟩
    exact hattained.imp (fun hm => ⟨w, hm, rfl⟩) fun hw => ⟨x, hmem, hw⟩

/-- **Both methods give the least wait**, if the time that is allowed is not negative, the time
values are canonical, and the time until the first deadline can be represented. -/
theorem calculateTimeout_least (h : TimerHeap τ ρ) (hv : h.Valid) (curTime : TimeValue)
    (hcur : curTime.Canonical) (htimers : ∀ x ∈ h.mHeap, x.timerValue.Canonical)
    (hdelta : ∀ x ∈ h.mHeap[0]?, x.timerValue.sub curTime ≠ none) (maxWaitTime : Option TimeValue)
    (hmax : ∀ m ∈ maxWaitTime, m.Canonical ∧ 0 ≤ m.micros) (buffer : TimeValue) :
    ∃ wait, h.calculateTimeout curTime maxWaitTime = .ok wait ∧
      h.calculateTimeoutTo curTime maxWaitTime (some buffer) = .ok wait ∧
      h.IsLeastWait curTime maxWaitTime wait := by
  rw [calculateTimeoutTo_eq]
  suffices ∃ wait, h.calculateTimeout curTime maxWaitTime = .ok wait ∧
      h.IsLeastWait curTime maxWaitTime wait by
    obtain ⟨wait, hwait, hleast⟩ := this
    exact ⟨wait, hwait, hwait, hleast⟩
  rcases hheap : h.mHeap with _ | ⟨x, rest⟩
  · exact ⟨maxWaitTime, if_pos (isEmpty_eq_true_iff.mpr hheap),
      isLeastWait_of_nil hheap fun m hm => (hmax m hm).2⟩
  have hx : h.mHeap[0]? = some x := by rw [hheap]; rfl
  have hxt := htimers x (List.mem_of_getElem? hx)
  have hne : ¬ h.isEmpty = true := by rw [isEmpty_eq_true_iff, hheap]; exact List.cons_ne_nil _ _
  have hearliest : h.earliestTime = .ok x.timerValue :=
    bind_eq_ok.mpr ⟨x, node_eq_ok.mpr hx, rfl⟩
  rw [calculateTimeout, if_neg hne, hearliest]
  change ∃ wait, (if x.timerValue.gt curTime then _ else _) = _ ∧ _
  split_ifs with hgt
  · obtain ⟨delta, hsub⟩ := Option.ne_none_iff_exists'.mp (hdelta x hx)
    have hpos : curTime.micros < x.timerValue.micros := (hcur.lt_iff hxt).mp hgt
    obtain ⟨-, -, rfl⟩ := sub_eq_some_iff.mp hsub
    have huntil : untilDeadline curTime x = x.timerValue.micros - curTime.micros :=
      max_eq_right (by omega)
    have hmicros := micros_ofMicros (x.timerValue.micros - curTime.micros)
    have hcanonical := canonical_ofMicros (x.timerValue.micros - curTime.micros)
    generalize ofMicros (x.timerValue.micros - curTime.micros) = delta at *
    rw [hsub]
    rcases maxWaitTime with _ | m
    · exact ⟨some delta, rfl, hv.isLeastWait hx htimers (by omega) (by simp) (by omega)
        (.inr (by omega))⟩
    · obtain ⟨hm, hmpos⟩ := hmax m rfl
      dsimp only
      split_ifs with hmgt
      · have hlt : delta.micros < m.micros := (hcanonical.lt_iff hm).mp hmgt
        refine ⟨some delta, rfl, hv.isLeastWait hx htimers (by omega) ?_ (by omega)
          (.inr (by omega))⟩
        rintro _ ⟨⟩
        exact hlt.le
      · have hle : m.micros ≤ delta.micros := (hm.le_iff hcanonical).mp (not_lt.mp hmgt)
        refine ⟨some m, rfl, hv.isLeastWait hx htimers hmpos ?_ (by omega) (.inl rfl)⟩
        rintro _ ⟨⟩
        exact le_rfl
  · have hle : x.timerValue.micros ≤ curTime.micros := (hxt.le_iff hcur).mp (not_lt.mp hgt)
    have huntil : untilDeadline curTime x = 0 := max_eq_left (by omega)
    refine ⟨some zero, rfl, hv.isLeastWait hx htimers micros_zero.ge (fun m hm => ?_) ?_ (.inr ?_)⟩
    · rw [micros_zero]
      exact (hmax m hm).2
    · rw [micros_zero, huntil]
    · rw [micros_zero, huntil]

theorem calculateTimeout_least_sample : ∃ wait,
    sampleHeap.calculateTimeout ⟨1, 500000⟩ (some ⟨4, 0⟩) = .ok wait ∧
      sampleHeap.IsLeastWait ⟨1, 500000⟩ (some ⟨4, 0⟩) wait := by
  obtain ⟨wait, hwait, -, hleast⟩ := calculateTimeout_least sampleHeap (by decide) ⟨1, 500000⟩
    (by decide) (by decide) (by decide) (some ⟨4, 0⟩) (by decide) zero
  exact ⟨wait, hwait, hleast⟩

theorem calculateTimeout_negative :
    (TimerHeap.new 4 : TimerHeap ℕ Unit).calculateTimeout ⟨5, 0⟩ (some ⟨-1, 0⟩) =
        .ok (some ⟨-1, 0⟩) ∧
      sampleHeap.calculateTimeout ⟨5, 0⟩ (some ⟨-1, 0⟩) = .ok (some ⟨0, 0⟩) ∧
      (⟨-1, 0⟩ : TimeValue) < ⟨0, 0⟩ ∧ (⟨-1, 0⟩ : TimeValue).Canonical := by
  decide +kernel

end Icm.Timer.TimerHeap
