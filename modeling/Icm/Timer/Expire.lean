import Icm.Timer.TimerHeap

/-!
# Expiry of timers

Method `expire` of class `TimerQueueT` in `icc/TimerQueue.cpp`, over the timer heap.
-/

namespace Icm.Timer

open Icm.Lib Icm.Lib.Heap TimeValue

variable {τ ρ : Type}

def skipExpired (curTime interval : TimeValue) : ℕ → TimeValue → Except Fault TimeValue
  | 0, _ => .error .endless
  | rounds + 1, timerValue =>
    match timerValue.add interval with
    | none => .error .overflow
    | some next => if next ≤ curTime then skipExpired curTime interval rounds next else .ok next

def skipRounds (curTime timerValue : TimeValue) : ℕ :=
  ((curTime.sec + 1) * 1000000 - timerValue.micros).toNat + 1

namespace TimerHeap

def earliestTime (h : TimerHeap τ ρ) : Except Fault TimeValue := do
  let first ← h.node 0
  return first.timerValue

def settle (h : TimerHeap τ ρ) (curTime : TimeValue) (expired : TimerNode τ ρ) :
    Except Fault (TimerHeap τ ρ) :=
  if zero < expired.interval then do
    let next ← skipExpired curTime expired.interval (skipRounds curTime expired.timerValue)
      expired.timerValue
    h.reschedule { expired with timerValue := next }
  else h.freeNode expired

def dispatchInfoI (h : TimerHeap τ ρ) (curTime : TimeValue) :
    Except Fault (Option (TimerNode τ ρ × TimerHeap τ ρ)) :=
  if h.isEmpty then .ok none
  else do
    let earliest ← h.earliestTime
    if earliest ≤ curTime then
      let r ← h.removeFirst
      let h ← r.2.settle curTime r.1
      return some (r.1, h)
    else .ok none

def expireLoop (upcall : TimerNodeDispatchInfo τ ρ → TimeValue → TimerHeap τ ρ →
    Except Fault (TimerHeap τ ρ)) (curTime : TimeValue) :
    ℕ → TimerHeap τ ρ → Except Fault (List (TimerNode τ ρ) × TimerHeap τ ρ)
  | 0, _ => .error .endless
  | rounds + 1, h => do
    match ← h.dispatchInfoI curTime with
    | none => .ok ([], h)
    | some (expired, h) =>
      let h ← upcall expired.getDispatchInfo curTime h
      let r ← expireLoop upcall curTime rounds h
      return (expired :: r.1, r.2)

def expire (upcall : TimerNodeDispatchInfo τ ρ → TimeValue → TimerHeap τ ρ →
    Except Fault (TimerHeap τ ρ)) (curTime : TimeValue) (rounds : ℕ) (h : TimerHeap τ ρ) :
    Except Fault (List (TimerNode τ ρ) × TimerHeap τ ρ) :=
  if h.isEmpty then .ok ([], h) else expireLoop upcall curTime rounds h

end TimerHeap

def firstAfter (c d i : ℤ) : ℤ := d + ((c - d) / i + 1) * i

section FirstAfter

variable {c d i : ℤ}

theorem firstAfter_of_lt (hle : d ≤ c) (hlt : c < d + i) : firstAfter c d i = d + i := by
  rw [firstAfter, Int.ediv_eq_zero_of_lt (by omega) (by omega), Int.zero_add, Int.one_mul]

theorem firstAfter_add (hi : 0 < i) : firstAfter c (d + i) i = firstAfter c d i := by
  have hdiv : (c - (d + i)) / i = (c - d) / i - 1 := by
    rw [← Int.sub_sub, Int.sub_ediv_of_dvd _ (dvd_refl i), Int.ediv_self hi.ne']
  rw [firstAfter, firstAfter, hdiv]
  ring

theorem lt_firstAfter (hi : 0 < i) : c < firstAfter c d i := by
  have hmod := Int.emod_lt_of_pos (c - d) hi
  have hsum := Int.mul_ediv_add_emod (c - d) i
  rw [firstAfter, add_mul, mul_comm ((c - d) / i)]
  omega

theorem firstAfter_spec (hi : 0 < i) (hle : d ≤ c) :
    ∃ k : ℕ, 0 < k ∧ firstAfter c d i = d + k * i ∧ ∀ j : ℕ, j < k → d + j * i ≤ c := by
  have hq : 0 ≤ (c - d) / i := Int.ediv_nonneg (by omega) hi.le
  obtain ⟨q, hq⟩ := Int.eq_ofNat_of_zero_le hq
  refine ⟨q + 1, Nat.succ_pos q, by rw [firstAfter, hq]; push_cast; ring, fun j hj => ?_⟩
  have hjq : (j : ℤ) ≤ (c - d) / i := by omega
  have hmul := (Int.le_ediv_iff_mul_le hi).mp hjq
  omega

end FirstAfter

theorem skipExpired_of_le {curTime interval t : TimeValue} {rounds : ℕ}
    (hcur : curTime.Canonical) (hinterval : interval.Canonical) (hpos : 0 < interval.micros)
    (hisec : IsTime interval.sec) (ht : t.Canonical) (htsec : IsTime t.sec)
    (hle : t.micros ≤ curTime.micros) (hrounds : curTime.micros - t.micros < rounds)
    (hnext : IsTime (ofMicros (firstAfter curTime.micros t.micros interval.micros)).sec) :
    skipExpired curTime interval rounds t =
      .ok (ofMicros (firstAfter curTime.micros t.micros interval.micros)) := by
  induction rounds generalizing t with
  | zero => omega
  | succ rounds ih =>
    obtain ⟨n, hn⟩ : ∃ n, n = t.micros + interval.micros := ⟨_, rfl⟩
    have hcanonical := canonical_ofMicros n
    -- The sum lies between the deadline and the next one, and so can be represented as well.
    have hsec : IsTime (ofMicros n).sec := by
      have hbetween : n ≤ firstAfter curTime.micros t.micros interval.micros := by
        by_cases hlt : curTime.micros < n
        · rw [firstAfter_of_lt hle (hn ▸ hlt), hn]
        · exact (not_lt.mp hlt).trans (lt_firstAfter hpos).le
      rw [(canonical_ofMicros _).isTime_iff, micros_ofMicros] at hnext ⊢
      rw [ht.isTime_iff] at htsec
      omega
    have hadd : t.add interval = some (ofMicros n) := by
      rw [hn] at hsec ⊢
      exact ht.add_eq_some hinterval htsec hisec hsec
    rw [skipExpired, hadd]
    dsimp only
    split_ifs with hstill <;> rw [hcanonical.le_iff hcur, micros_ofMicros] at hstill
    · have hsame : firstAfter curTime.micros (ofMicros n).micros interval.micros =
          firstAfter curTime.micros t.micros interval.micros := by
        rw [micros_ofMicros, hn, firstAfter_add hpos]
      rw [← hsame] at hnext ⊢
      exact ih hcanonical hsec (by rwa [micros_ofMicros]) (by rw [micros_ofMicros]; omega) hnext
    · rw [firstAfter_of_lt hle (by omega), hn]

namespace TimerNode

variable {curTime : TimeValue} {x : TimerNode τ ρ}

def Due (curTime : TimeValue) (x : TimerNode τ ρ) : Prop := x.timerValue ≤ curTime

def Periodic (x : TimerNode τ ρ) : Prop := zero < x.interval

instance (curTime : TimeValue) : DecidablePred (Due curTime : TimerNode τ ρ → Prop) :=
  fun x => inferInstanceAs (Decidable (x.timerValue ≤ curTime))

instance : DecidablePred (Periodic : TimerNode τ ρ → Prop) :=
  fun x => inferInstanceAs (Decidable (zero < x.interval))

def nextDeadline (curTime : TimeValue) (x : TimerNode τ ρ) : TimeValue :=
  ofMicros (firstAfter curTime.micros x.timerValue.micros x.interval.micros)

/-- The time values are canonical, and the seconds of the times, also those of the next deadline,
can be represented. -/
structure Regular (curTime : TimeValue) (x : TimerNode τ ρ) : Prop where
  canonical_curTime : curTime.Canonical
  canonical_timerValue : x.timerValue.Canonical
  canonical_interval : x.interval.Canonical
  timerValue_sec : IsTime x.timerValue.sec
  interval_sec : IsTime x.interval.sec
  nextDeadline_sec : IsTime (x.nextDeadline curTime).sec

instance (curTime : TimeValue) (x : TimerNode τ ρ) : Decidable (x.Regular curTime) :=
  decidable_of_iff (curTime.Canonical ∧ x.timerValue.Canonical ∧ x.interval.Canonical ∧
      IsTime x.timerValue.sec ∧ IsTime x.interval.sec ∧ IsTime (x.nextDeadline curTime).sec)
    ⟨fun ⟨hcur, ht, hi, htsec, hisec, hnext⟩ => ⟨hcur, ht, hi, htsec, hisec, hnext⟩,
      fun ⟨hcur, ht, hi, htsec, hisec, hnext⟩ => ⟨hcur, ht, hi, htsec, hisec, hnext⟩⟩

def after (curTime : TimeValue) (x : TimerNode τ ρ) : List (TimerNode τ ρ) :=
  if x.Due curTime then
    if x.Periodic then [{ x with timerValue := x.nextDeadline curTime }] else []
  else [x]

theorem Regular.skipExpired_eq (hx : x.Regular curTime) (hdue : x.Due curTime)
    (hperiodic : x.Periodic) :
    skipExpired curTime x.interval (skipRounds curTime x.timerValue) x.timerValue =
      .ok (x.nextDeadline curTime) := by
  have hle := (hx.canonical_timerValue.le_iff hx.canonical_curTime).mp hdue
  refine skipExpired_of_le hx.canonical_curTime hx.canonical_interval
    (hx.canonical_interval.zero_lt_iff.mp hperiodic) hx.interval_sec hx.canonical_timerValue
    hx.timerValue_sec hle ?_ hx.nextDeadline_sec
  have husec := hx.canonical_curTime.lt
  have hmicros : curTime.micros = curTime.sec * 1000000 + curTime.usec := rfl
  rw [skipRounds]
  omega

theorem Regular.lt_nextDeadline (hx : x.Regular curTime) (hperiodic : x.Periodic) :
    curTime < x.nextDeadline curTime := by
  rw [nextDeadline, hx.canonical_curTime.lt_iff (canonical_ofMicros _), micros_ofMicros]
  exact lt_firstAfter (hx.canonical_interval.zero_lt_iff.mp hperiodic)

theorem not_due_of_mem_after (hx : x.Due curTime → x.Periodic → x.Regular curTime)
    {y : TimerNode τ ρ} (hy : y ∈ x.after curTime) : ¬ y.Due curTime := by
  rw [after] at hy
  split_ifs at hy with hdue hperiodic
  · obtain rfl := List.mem_singleton.mp hy
    exact not_le.mpr ((hx hdue hperiodic).lt_nextDeadline hperiodic)
  · cases hy
  · obtain rfl := List.mem_singleton.mp hy
    exact hdue

theorem timerId_of_mem_after {y : TimerNode τ ρ} (hy : y ∈ x.after curTime) :
    y.timerId = x.timerId := by
  rw [after] at hy
  split_ifs at hy
  · rw [List.mem_singleton.mp hy]
  · cases hy
  · rw [List.mem_singleton.mp hy]

theorem length_after_le (curTime : TimeValue) (x : TimerNode τ ρ) :
    (x.after curTime).length ≤ 1 := by
  rw [after]
  split_ifs <;> simp

theorem after_of_not_due (hx : ¬ x.Due curTime) : x.after curTime = [x] := if_neg hx

end TimerNode

open TimerNode

theorem flatMap_after_of_not_due {curTime : TimeValue} {xs : List (TimerNode τ ρ)}
    (h : ∀ x ∈ xs, ¬ x.Due curTime) : xs.flatMap (after curTime) = xs := by
  rw [List.flatMap_congr fun x hx => after_of_not_due (h x hx)]
  exact List.flatMap_singleton' xs

namespace TimerHeap

variable {curTime : TimeValue} {h : TimerHeap τ ρ}

structure Round (curTime : TimeValue) (h : TimerHeap τ ρ) (x : TimerNode τ ρ)
    (h' : TimerHeap τ ρ) : Prop where
  perm : ∃ rest, (x :: rest).Perm h.mHeap ∧ h'.mHeap.Perm (x.after curTime ++ rest)
  valid : h'.Valid
  freed : ¬ x.Periodic → h'.mTimerIds[x.timerId]? = some (-1)
  mCurLimbo_eq : h'.mCurLimbo = h.mCurLimbo
  mMaxSize_le : h.mMaxSize ≤ h'.mMaxSize
  others : ∀ j < h.mMaxSize, (∀ y ∈ h.mHeap, y.timerId ≠ j) →
    h'.mTimerIds[j]? = h.mTimerIds[j]?

theorem Removed.settle_of_periodic {h h₁ : TimerHeap τ ρ} {x : TimerNode τ ρ}
    (hr : h.Removed x h₁) (hv : h.Valid) (hroom : h.HasRoom) (hdue : x.Due curTime)
    (hperiodic : x.Periodic) (hx : x.Regular curTime) :
    ∃ h', h₁.settle curTime x = .ok h' ∧ h.Round curTime x h' := by
  obtain ⟨y, hy⟩ : ∃ y, y = { x with timerValue := x.nextDeadline curTime } := ⟨_, rfl⟩
  have hid : y.timerId = x.timerId := by rw [hy]
  have hafter : x.after curTime = [y] := by rw [after, if_pos hdue, if_pos hperiodic, hy]
  obtain ⟨h', hreschedule, hi⟩ := hr.reschedule hv hid hroom
  refine ⟨h', ?_, ⟨h₁.mHeap, hr.perm, ?_⟩, hi.valid, fun h => absurd hperiodic h, hi.mCurLimbo_eq,
    hr.mMaxSize_eq.ge.trans hi.mMaxSize_le, fun j hj hothers => ?_⟩
  · rw [settle, if_pos (show zero < x.interval from hperiodic)]
    exact bind_eq_ok.mpr ⟨_, hx.skipExpired_eq hdue hperiodic, hy ▸ hreschedule⟩
  · rw [hafter]
    exact hi.perm
  · rw [hi.others_of_lt (hr.mMaxSize_eq.ge.trans_lt' hj) fun z hz => ?_, hr.others j hothers]
    rcases List.mem_cons.mp (hi.perm.mem_iff.mp hz) with rfl | hz
    · rw [hid]
      exact hothers x (hr.perm.mem_iff.mp List.mem_cons_self)
    · exact hothers z (hr.perm.mem_iff.mp (List.mem_cons_of_mem _ hz))

theorem Removed.settle_of_not_periodic {h h₁ : TimerHeap τ ρ} {x : TimerNode τ ρ}
    (hr : h.Removed x h₁) (hv : h.Valid) (hdue : x.Due curTime) (hperiodic : ¬ x.Periodic) :
    ∃ h', h₁.settle curTime x = .ok h' ∧ h.Round curTime x h' := by
  obtain ⟨h', hfree, hvalid, hf, hlimbo⟩ := hr.freeNode hv
  have hafter : x.after curTime = [] := by rw [after, if_pos hdue, if_neg hperiodic]
  refine ⟨h', (if_neg hperiodic).trans hfree, ⟨h₁.mHeap, hr.perm, ?_⟩, hvalid, fun _ => ?_, hlimbo,
    ?_, fun j hj hothers => ?_⟩
  · rw [hafter, hf.mHeap_eq]
    rfl
  · exact hf.entry_self
  · rw [hf.mMaxSize_eq, hr.mMaxSize_eq]
  · have hne := hothers x (hr.perm.mem_iff.mp List.mem_cons_self)
    rw [hf.entry_of_ne hne.symm, hr.others j hothers]

structure Ready (curTime : TimeValue) (h : TimerHeap τ ρ) : Prop where
  valid : h.Valid
  room : h.HasRoom
  regular : ∀ x ∈ h.mHeap, x.Due curTime → x.Periodic → x.Regular curTime

theorem isEmpty_eq_true_iff : h.isEmpty = true ↔ h.mHeap = [] := by
  rw [isEmpty, beq_iff_eq, mCurSize, List.length_eq_zero_iff]

theorem Ready.dispatchInfoI_cases (hready : h.Ready curTime) :
    (∀ x ∈ h.mHeap, ¬ x.Due curTime) ∧ h.dispatchInfoI curTime = .ok none ∨
      ∃ x h', h.dispatchInfoI curTime = .ok (some (x, h')) ∧ x.Due curTime ∧
        (∀ y ∈ h.mHeap, x.timerValue ≤ y.timerValue) ∧ h.Round curTime x h' := by
  rcases hheap : h.mHeap with _ | ⟨x, rest⟩
  · refine .inl ⟨by simp, ?_⟩
    rw [dispatchInfoI, if_pos (isEmpty_eq_true_iff.mpr hheap)]
  have hx : h.mHeap[0]? = some x := by rw [hheap]; rfl
  have hmem : x ∈ h.mHeap := List.mem_of_getElem? hx
  have hfirst : ∀ y ∈ h.mHeap, x.timerValue ≤ y.timerValue := fun y hy => by
    obtain ⟨i, hi⟩ := List.mem_iff_getElem?.mp hy
    exact hready.valid.ordered.first_le hx hi
  have hearliest : h.earliestTime = .ok x.timerValue :=
    bind_eq_ok.mpr ⟨x, node_eq_ok.mpr hx, rfl⟩
  have hne : ¬ h.isEmpty = true := by rw [isEmpty_eq_true_iff, hheap]; exact List.cons_ne_nil _ _
  rw [dispatchInfoI, if_neg hne, ← hheap]
  by_cases hdue : x.timerValue ≤ curTime
  · obtain ⟨h₁, hremove, hr⟩ := hready.valid.remove hx
    obtain ⟨h', hsettle, hround⟩ : ∃ h', h₁.settle curTime x = .ok h' ∧ h.Round curTime x h' := by
      by_cases hperiodic : x.Periodic
      · exact hr.settle_of_periodic hready.valid hready.room hdue hperiodic
          (hready.regular x hmem hdue hperiodic)
      · exact hr.settle_of_not_periodic hready.valid hdue hperiodic
    refine .inr ⟨x, h', bind_eq_ok.mpr ⟨_, hearliest, ?_⟩, hdue, hfirst, hround⟩
    rw [if_pos hdue]
    exact bind_eq_ok.mpr ⟨_, hremove, bind_eq_ok.mpr ⟨_, hsettle, rfl⟩⟩
  · refine .inl ⟨fun y hy hy' => hdue ((hfirst y hy).trans hy'), bind_eq_ok.mpr ⟨_, hearliest, ?_⟩⟩
    exact if_neg hdue

/-- What `expire` did to a queue: it made upcalls for exactly the timers that were due, in the order
of their deadlines, left what is to be left of each timer, and freed the ids of the others. -/
structure Expired (curTime : TimeValue) (h : TimerHeap τ ρ) (dispatched : List (TimerNode τ ρ))
    (h' : TimerHeap τ ρ) : Prop where
  due : dispatched.Perm (h.mHeap.filter (Due curTime ·))
  sorted : dispatched.Pairwise (·.timerValue ≤ ·.timerValue)
  left : h'.mHeap.Perm (h.mHeap.flatMap (after curTime))
  valid : h'.Valid
  freed : ∀ x ∈ h.mHeap, x.Due curTime → ¬ x.Periodic → h'.mTimerIds[x.timerId]? = some (-1)
  mCurLimbo_eq : h'.mCurLimbo = h.mCurLimbo
  others : ∀ j < h.mMaxSize, (∀ y ∈ h.mHeap, y.timerId ≠ j) →
    h'.mTimerIds[j]? = h.mTimerIds[j]?

theorem Expired.refl (hv : h.Valid) (hdue : ∀ x ∈ h.mHeap, ¬ x.Due curTime) :
    h.Expired curTime [] h where
  due := by
    rw [List.filter_eq_nil_iff.mpr (by simpa using hdue)]
  sorted := .nil
  left := by rw [flatMap_after_of_not_due hdue]
  valid := hv
  freed x hx hx' := absurd hx' (hdue x hx)
  mCurLimbo_eq := rfl
  others _ _ _ := rfl

namespace Round

variable {h' : TimerHeap τ ρ} {x : TimerNode τ ρ}

section

variable (hround : h.Round curTime x h')
include hround

theorem mem_cases {y : TimerNode τ ρ} (hy : y ∈ h'.mHeap) :
    y ∈ x.after curTime ∨ y ∈ h.mHeap := by
  obtain ⟨rest, hperm, hperm'⟩ := hround.perm
  rcases List.mem_append.mp (hperm'.mem_iff.mp hy) with hy | hy
  · exact .inl hy
  · exact .inr (hperm.mem_iff.mp (List.mem_cons_of_mem _ hy))

theorem ready (hready : h.Ready curTime) (hx : x ∈ h.mHeap) :
    h'.Ready curTime where
  valid := hround.valid
  room := by
    obtain ⟨rest, hperm, hperm'⟩ := hround.perm
    have hlength : rest.length + 1 = h.mCurSize := hperm.length_eq
    have hlength' : h'.mCurSize = (x.after curTime).length + rest.length :=
      hperm'.length_eq.trans List.length_append
    have hafter := length_after_le curTime x
    have hroom := hready.room
    have hlimbo := hround.mCurLimbo_eq
    have hmax := hround.mMaxSize_le
    rw [HasRoom] at hroom ⊢
    omega
  regular y hy hdue hperiodic := by
    rcases hround.mem_cases hy with hy | hy
    · exact absurd hdue (not_due_of_mem_after (hready.regular x hx) hy)
    · exact hready.regular y hy hdue hperiodic

theorem filter_perm (hready : h.Ready curTime)
    (hx : x ∈ h.mHeap) (hdue : x.Due curTime) :
    (h.mHeap.filter (Due curTime ·)).Perm (x :: h'.mHeap.filter (Due curTime ·)) := by
  obtain ⟨rest, hperm, hperm'⟩ := hround.perm
  have hafter : (x.after curTime).filter (Due curTime ·) = [] :=
    List.filter_eq_nil_iff.mpr fun y hy => by
      simpa using not_due_of_mem_after (hready.regular x hx) hy
  have hrest := hperm'.filter (Due curTime ·)
  rw [List.filter_append, hafter, List.nil_append] at hrest
  calc h.mHeap.filter (Due curTime ·)
      _ |>.Perm ((x :: rest).filter (Due curTime ·)) := (hperm.filter _).symm
      _ |>.Perm (x :: rest.filter (Due curTime ·)) := by
        rw [List.filter_cons_of_pos (by simpa using hdue)]
      _ |>.Perm (x :: h'.mHeap.filter (Due curTime ·)) := (hrest.cons x).symm

theorem flatMap_perm (hready : h.Ready curTime)
    (hx : x ∈ h.mHeap) :
    (h'.mHeap.flatMap (after curTime)).Perm (h.mHeap.flatMap (after curTime)) := by
  obtain ⟨rest, hperm, hperm'⟩ := hround.perm
  have hafter := flatMap_after_of_not_due fun y hy =>
    not_due_of_mem_after (hready.regular x hx) hy
  calc h'.mHeap.flatMap (after curTime)
      _ |>.Perm ((x.after curTime ++ rest).flatMap (after curTime)) := hperm'.flatMap_right _
      _ |>.Perm ((x :: rest).flatMap (after curTime)) := by
        rw [List.flatMap_append, hafter, List.flatMap_cons]
      _ |>.Perm (h.mHeap.flatMap (after curTime)) := hperm.flatMap_right _

end

theorem expired {h'' : TimerHeap τ ρ} {dispatched : List (TimerNode τ ρ)}
    (hround : h.Round curTime x h') (hready : h.Ready curTime) (hdue : x.Due curTime)
    (hfirst : ∀ y ∈ h.mHeap, x.timerValue ≤ y.timerValue) (hx : x ∈ h.mHeap)
    (hrest : h'.Expired curTime dispatched h'') : h.Expired curTime (x :: dispatched) h'' where
  due := (hrest.due.cons x).trans (hround.filter_perm hready hx hdue).symm
  sorted := by
    refine List.pairwise_cons.mpr ⟨fun y hy => ?_, hrest.sorted⟩
    have hmem := (hround.filter_perm hready hx hdue).mem_iff.mpr
      (List.mem_cons_of_mem _ (hrest.due.mem_iff.mp hy))
    exact hfirst y (List.mem_of_mem_filter hmem)
  left := hrest.left.trans (hround.flatMap_perm hready hx)
  valid := hrest.valid
  freed y hy hydue hperiodic := by
    obtain ⟨rest, hperm, hperm'⟩ := hround.perm
    rcases List.mem_cons.mp (hperm.mem_iff.mpr hy) with rfl | hyrest
    · have hafter : y.after curTime = [] := by rw [after, if_pos hydue, if_neg hperiodic]
      rw [hafter] at hperm'
      have hfreed := hround.freed hperiodic
      rw [hrest.others _ (List.getElem?_eq_some_iff.mp hfreed).1 fun z hz => ?_, hfreed]
      exact hready.valid.timerId_ne hperm z (hperm'.mem_iff.mp hz)
    · exact hrest.freed y (hperm'.mem_iff.mpr (List.mem_append_right _ hyrest)) hydue hperiodic
  mCurLimbo_eq := hrest.mCurLimbo_eq.trans hround.mCurLimbo_eq
  others j hj hothers := by
    rw [hrest.others j (hj.trans_le hround.mMaxSize_le) fun z hz => ?_, hround.others j hj hothers]
    rcases hround.mem_cases hz with hz | hz
    · rw [timerId_of_mem_after hz]
      exact hothers x hx
    · exact hothers z hz

end Round

theorem Ready.expireLoop {upcall : TimerNodeDispatchInfo τ ρ → TimeValue → TimerHeap τ ρ →
      Except Fault (TimerHeap τ ρ)}
    (hupcall : ∀ info h, upcall info curTime h = .ok h) {rounds : ℕ} (hready : h.Ready curTime)
    (hrounds : (h.mHeap.filter (Due curTime ·)).length < rounds) :
    ∃ dispatched h', expireLoop upcall curTime rounds h = .ok (dispatched, h') ∧
      h.Expired curTime dispatched h' := by
  induction rounds generalizing h with
  | zero => cases hrounds
  | succ rounds ih =>
    rcases hready.dispatchInfoI_cases with
      ⟨hdue, hnone⟩ | ⟨x, h', hsome, hdue, hfirst, hround⟩
    · exact ⟨[], h, bind_eq_ok.mpr ⟨_, hnone, rfl⟩, .refl hready.valid hdue⟩
    · have hx : x ∈ h.mHeap := by
        obtain ⟨rest, hperm, -⟩ := hround.perm
        exact hperm.mem_iff.mp List.mem_cons_self
      have hlength := (hround.filter_perm hready hx hdue).length_eq
      rw [List.length_cons] at hlength
      obtain ⟨dispatched, h'', hloop, hrest⟩ := ih (hround.ready hready hx) (by omega)
      refine ⟨x :: dispatched, h'', ?_, hround.expired hready hdue hfirst hx hrest⟩
      exact bind_eq_ok.mpr ⟨_, hsome, bind_eq_ok.mpr ⟨_, hupcall _ _, bind_eq_ok.mpr
        ⟨_, hloop, rfl⟩⟩⟩

/-- **What `expire` does.** -/
theorem expire_dispatches (h : TimerHeap τ ρ) (hv : h.Valid) (hroom : h.HasRoom)
    (curTime : TimeValue)
    (hregular : ∀ x ∈ h.mHeap, x.Due curTime → x.Periodic → x.Regular curTime)
    (upcall : TimerNodeDispatchInfo τ ρ → TimeValue → TimerHeap τ ρ →
      Except Fault (TimerHeap τ ρ))
    (hupcall : ∀ info h, upcall info curTime h = .ok h) (rounds : ℕ)
    (hrounds : h.mCurSize < rounds) :
    ∃ dispatched h', expire upcall curTime rounds h = .ok (dispatched, h') ∧
      h.Expired curTime dispatched h' ∧
      ∀ x ∈ h.mHeap, x.Due curTime → x.Periodic → curTime < x.nextDeadline curTime ∧
        ∃ k : ℕ, 0 < k ∧
          (x.nextDeadline curTime).micros = x.timerValue.micros + k * x.interval.micros ∧
          ∀ j : ℕ, j < k →
            x.timerValue.micros + j * x.interval.micros ≤ curTime.micros := by
  have hready : h.Ready curTime := ⟨hv, hroom, hregular⟩
  have hle : (h.mHeap.filter (Due curTime ·)).length ≤ h.mCurSize := List.length_filter_le _ _
  obtain ⟨dispatched, h', hexpire, hexpired⟩ : ∃ dispatched h',
      expire upcall curTime rounds h = .ok (dispatched, h') ∧
        h.Expired curTime dispatched h' := by
    rw [expire]
    split_ifs with hempty
    · refine ⟨[], h, rfl, .refl hv ?_⟩
      rw [isEmpty_eq_true_iff.mp hempty]
      simp
    · exact hready.expireLoop hupcall (by omega)
  refine ⟨dispatched, h', hexpire, hexpired, fun x hx hdue hperiodic => ?_⟩
  have hreg := hregular x hx hdue hperiodic
  refine ⟨hreg.lt_nextDeadline hperiodic, ?_⟩
  rw [nextDeadline, micros_ofMicros]
  exact firstAfter_spec (hreg.canonical_interval.zero_lt_iff.mp hperiodic)
    ((hreg.canonical_timerValue.le_iff hreg.canonical_curTime).mp hdue)

def sampleHeap : TimerHeap ℕ Unit where
  mHeap := [⟨7, (), ⟨2, 0⟩, ⟨1, 0⟩, 2⟩, ⟨8, (), ⟨3, 0⟩, ⟨0, 0⟩, 1⟩]
  mTimerIds := [-1, 1, 0, -1, -1, -1, -1, -1]
  mCurLimbo := 0
  mTimerIdsCurr := 2
  mTimerIdsMinFree := 0

theorem expire_dispatches_sample :
    ∃ dispatched h', expire (fun _ _ h => .ok h) ⟨5, 0⟩ 3 sampleHeap = .ok (dispatched, h') ∧
      sampleHeap.Expired ⟨5, 0⟩ dispatched h' := by
  obtain ⟨dispatched, h', hexpire, hexpired, -⟩ := expire_dispatches sampleHeap (by decide)
    (by decide) ⟨5, 0⟩ (by decide +kernel) (fun _ _ h => .ok h) (fun _ _ => rfl) 3 (by decide)
  exact ⟨dispatched, h', hexpire, hexpired⟩

def lastHeap : TimerHeap ℕ Unit where
  mHeap := [⟨7, (), ⟨2 ^ 63 - 1, 0⟩, ⟨1, 0⟩, 1⟩]
  mTimerIds := [-1, 0, -1, -1]
  mCurLimbo := 0
  mTimerIdsCurr := 1
  mTimerIdsMinFree := 0

theorem expire_overflow :
    lastHeap.Valid ∧ zero ≤ ⟨2 ^ 63 - 1, 0⟩ ∧
      (∀ x ∈ lastHeap.mHeap, x.timerValue.Canonical ∧ x.interval.Canonical) ∧
      expire (fun _ _ h => .ok h) ⟨2 ^ 63 - 1, 0⟩ 2 lastHeap = .error .overflow :=
  ⟨by decide, by decide, by decide, by decide +kernel⟩

end TimerHeap

end Icm.Timer
