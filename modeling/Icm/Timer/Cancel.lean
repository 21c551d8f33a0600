import Icm.Timer.TimerIds

/-!
# Cancellation of timers

Methods `cancel`, for an id and for a handler, and `resetInterval` of class `TimerHeapT`.
-/

namespace Icm.Timer

open Icm.Lib Icm.Lib.Heap List

namespace TimerHeap

variable {τ ρ : Type}

def slotOf (h : TimerHeap τ ρ) (timerId : ℤ) : Except Fault (Option ℕ) :=
  if timerId < 0 ∨ (h.mMaxSize : ℤ) < timerId then .ok none
  else
    match h.mTimerIds[timerId.toNat]? with
    | none => .error .outOfBounds
    | some timerNodeSlot =>
      if timerNodeSlot < 0 then .ok none
      else do
        let node ← h.node timerNodeSlot.toNat
        require .assertion (timerId = node.timerId)
        return some timerNodeSlot.toNat

def cancel (cancellation : τ → TimerHeap τ ρ → Except Fault (TimerHeap τ ρ)) (h : TimerHeap τ ρ)
    (timerId : ℤ) : Except Fault (Option ρ × TimerHeap τ ρ) := do
  match ← h.slotOf timerId with
  | none => .ok (none, h)
  | some timerNodeSlot =>
    let r ← h.remove timerNodeSlot
    let h ← cancellation r.1.type r.2
    let h ← h.freeNode r.1
    return (some r.1.act, h)

def resetInterval (h : TimerHeap τ ρ) (timerId : ℤ) (interval : TimeValue) :
    Except Fault (Bool × TimerHeap τ ρ) := do
  match ← h.slotOf timerId with
  | none => .ok (false, h)
  | some timerNodeSlot =>
    let node ← h.node timerNodeSlot
    return (true, { h with mHeap := h.mHeap.set timerNodeSlot { node with interval := interval } })

def cancelLoop [DecidableEq τ] (type : τ) :
    ℕ → ℕ → ℕ → TimerHeap τ ρ → Except Fault (ℕ × TimerHeap τ ρ)
  | 0, _, _, _ => .error .endless
  | rounds + 1, i, numberOfCancellations, h =>
    if i < h.mCurSize then do
      let node ← h.node i
      if node.type = type then
        let r ← h.remove i
        let h ← r.2.freeNode r.1
        cancelLoop type rounds 0 (numberOfCancellations + 1) h
      else cancelLoop type rounds (i + 1) numberOfCancellations h
    else .ok (numberOfCancellations, h)

def cancelRounds (h : TimerHeap τ ρ) : ℕ := (h.mCurSize + 1) ^ 2

def cancelType [DecidableEq τ]
    (cancellation : τ → TimerHeap τ ρ → Except Fault (TimerHeap τ ρ)) (rounds : ℕ)
    (h : TimerHeap τ ρ) (type : τ) : Except Fault (ℕ × TimerHeap τ ρ) := do
  let r ← cancelLoop type rounds 0 0 h
  let h ← cancellation type r.2
  return (r.1, h)

namespace Sound

variable {out : List (TimerNode τ ρ)} {h : TimerHeap τ ρ}

theorem slotOf_of_mem (hs : Sound out h) {slot : ℕ} {x : TimerNode τ ρ}
    (hx : h.mHeap[slot]? = some x) : h.slotOf x.timerId = .ok (some slot) := by
  have hentry := hs.valid.located slot x hx
  have hlt : x.timerId < h.mMaxSize := (List.getElem?_eq_some_iff.mp hentry).1
  rw [slotOf, if_neg (by omega), Int.toNat_natCast, hentry]
  dsimp only
  rw [if_neg (by omega), Int.toNat_natCast]
  exact bind_eq_ok.mpr ⟨x, node_eq_ok.mpr hx, bind_eq_ok.mpr ⟨(), require_eq_ok.mpr rfl, rfl⟩⟩

theorem slotOf_of_forall_ne (hs : Sound out h) {timerId : ℤ}
    (hne : ∀ x ∈ h.mHeap, (x.timerId : ℤ) ≠ timerId) :
    h.slotOf timerId = if timerId = h.mMaxSize then .error .outOfBounds else .ok none := by
  rw [slotOf]
  split_ifs with hrange hmax hmax
  · omega
  · rfl
  · rw [getElem?_eq_none (show h.mTimerIds.length ≤ timerId.toNat by
      rw [hmax, Int.toNat_natCast]; rfl)]
  · have hlt : timerId.toNat < h.mMaxSize := by omega
    obtain ⟨entry, hentry⟩ : ∃ entry, h.mTimerIds[timerId.toNat]? = some entry :=
      ⟨_, getElem?_eq_getElem hlt⟩
    rw [hentry]
    -- An entry that is no slot, since a slot would be that of a timer with this id.
    refine if_pos (not_le.mp fun hnonneg => ?_)
    obtain ⟨slot, rfl⟩ := Int.eq_ofNat_of_zero_le hnonneg
    obtain ⟨x, hx, hid⟩ := hs.owned _ _ hentry
    exact hne x hx (by omega)

end Sound

structure Cancelled (h : TimerHeap τ ρ) (xs : List (TimerNode τ ρ)) (h' : TimerHeap τ ρ) :
    Prop where
  perm : (xs ++ h'.mHeap).Perm h.mHeap
  freed : ∀ x ∈ xs, h'.mTimerIds[x.timerId]? = some (-1)
  mMaxSize_eq : h'.mMaxSize = h.mMaxSize
  mCurLimbo_eq : h'.mCurLimbo = h.mCurLimbo
  others : ∀ j, (∀ y ∈ h.mHeap, y.timerId ≠ j) → h'.mTimerIds[j]? = h.mTimerIds[j]?

theorem Cancelled.refl (h : TimerHeap τ ρ) : h.Cancelled [] h :=
  ⟨.refl _, by simp, rfl, rfl, fun _ _ => rfl⟩

theorem Cancelled.cons {h h₁ h' : TimerHeap τ ρ} {x : TimerNode τ ρ} {xs : List (TimerNode τ ρ)}
    (hv : h.Valid) (hc : h.Cancelled [x] h₁) (hc' : h₁.Cancelled xs h') :
    h.Cancelled (x :: xs) h' where
  perm := (hc'.perm.cons x).trans hc.perm
  freed := by
    refine forall_mem_cons.mpr ⟨?_, hc'.freed⟩
    rw [hc'.others _ (hv.timerId_ne hc.perm)]
    exact hc.freed x (mem_singleton_self x)
  mMaxSize_eq := hc'.mMaxSize_eq.trans hc.mMaxSize_eq
  mCurLimbo_eq := hc'.mCurLimbo_eq.trans hc.mCurLimbo_eq
  others j hj := by
    rw [hc'.others j fun y hy => hj y (hc.perm.mem_iff.mp (mem_cons_of_mem _ hy)),
      hc.others j hj]

theorem Removed.cancelled {h h₁ h' : TimerHeap τ ρ} {x : TimerNode τ ρ} (hr : h.Removed x h₁)
    (hf : h₁.Freed x.timerId h') : h.Cancelled [x] h' where
  perm := by
    rw [hf.mHeap_eq]
    exact hr.perm
  freed := by
    rintro y hy
    obtain rfl := mem_singleton.mp hy
    exact hf.entry_self
  mMaxSize_eq := hf.mMaxSize_eq.trans hr.mMaxSize_eq
  mCurLimbo_eq := by rw [hf.mCurLimbo_eq, hr.mCurLimbo_eq, Nat.add_sub_cancel]
  others j hj := by
    rw [hf.entry_of_ne (hj x (hr.perm.mem_iff.mp mem_cons_self)).symm, hr.others j hj]

namespace Sound

variable {out : List (TimerNode τ ρ)} {h : TimerHeap τ ρ}

variable {x : TimerNode τ ρ}

section

variable (hs : Sound out h)
include hs

theorem remove_freeNode {slot : ℕ}
    (hx : h.mHeap[slot]? = some x) :
    ∃ h₁ h', h.remove slot = .ok (x, h₁) ∧ h₁.freeNode x = .ok h' ∧ h.Cancelled [x] h' ∧
      Sound out h' ∧ (h.Exact → h'.Exact) := by
  obtain ⟨h₁, hremove, hr⟩ := hs.valid.remove hx
  have hs₁ := hs.of_removed hr
  obtain ⟨h', hfree, hf⟩ := hs₁.freeNode
  exact ⟨h₁, h', hremove, hfree, hr.cancelled hf, hs₁.of_freed hf,
    fun he => hs₁.exact_of_freed hf (hs.exact_of_removed hr he)⟩

theorem cancel_of_mem (hx : x ∈ h.mHeap) :
    ∃ h', h.cancel (fun _ h => .ok h) x.timerId = .ok (some x.act, h') ∧ h.Cancelled [x] h' ∧
      Sound out h' ∧ (h.Exact → h'.Exact) := by
  obtain ⟨slot, hslot⟩ := mem_iff_getElem?.mp hx
  obtain ⟨h₁, h', hremove, hfree, hc, hs', he⟩ := hs.remove_freeNode hslot
  refine ⟨h', bind_eq_ok.mpr ⟨_, hs.slotOf_of_mem hslot, bind_eq_ok.mpr ⟨_, hremove, ?_⟩⟩, hc, hs',
    he⟩
  exact bind_eq_ok.mpr ⟨h₁, rfl, bind_eq_ok.mpr ⟨h', hfree, rfl⟩⟩

theorem cancel_of_forall_ne {timerId : ℤ}
    (cancellation : τ → TimerHeap τ ρ → Except Fault (TimerHeap τ ρ))
    (hne : ∀ x ∈ h.mHeap, (x.timerId : ℤ) ≠ timerId) :
    h.cancel cancellation timerId =
      if timerId = h.mMaxSize then .error .outOfBounds else .ok (none, h) := by
  rw [cancel, hs.slotOf_of_forall_ne hne]
  split_ifs <;> rfl

theorem set_interval {slot : ℕ} (interval : TimeValue)
    (hx : h.mHeap[slot]? = some x) :
    Sound out { h with mHeap := h.mHeap.set slot { x with interval := interval } } := by
  obtain ⟨heap, hheap⟩ : ∃ heap, heap = h.mHeap.set slot { x with interval := interval } := ⟨_, rfl⟩
  have hlength : heap.length = h.mHeap.length := by rw [hheap, length_set]
  have hids : heap.map TimerNode.timerId = h.mHeap.map TimerNode.timerId :=
    hheap ▸ map_set_eq hx rfl
  have hvalues : heap.map TimerNode.timerValue = h.mHeap.map TimerNode.timerValue :=
    hheap ▸ map_set_eq hx rfl
  have hmem : ∀ i, (∃ y ∈ heap, y.timerId = i) ↔ ∃ y ∈ h.mHeap, y.timerId = i := fun i => by
    rw [← mem_map, ← mem_map, hids]
  rw [← hheap]
  have hv := hs.valid
  refine ⟨⟨hv.ordered.of_map_eq hvalues, hv.located.of_map_eq hids, hlength.trans_le hv.fits,
    fun y hy => ?_⟩, fun i slot hi => (hmem i).mpr (hs.owned i slot hi), hs.entry, hs.admitted,
    hs.nodup, hs.mCurLimbo_eq, hs.tracked, hs.curr_lt, hs.few, ?_⟩
  · obtain ⟨z, hz, hid⟩ := (hmem y.timerId).mp ⟨y, hy, rfl⟩
    have hadmitted := hv.admitted z hz
    rw [TimerNode.Admitted, hid] at hadmitted
    exact hadmitted
  · refine hs.room.imp_left fun hroom => ?_
    change heap.length + h.mCurLimbo + 2 ≤ h.mMaxSize
    rw [hlength]
    exact hroom

theorem resetInterval_of_mem {slot : ℕ}
    (interval : TimeValue) (hx : h.mHeap[slot]? = some x) :
    h.resetInterval x.timerId interval =
      .ok (true, { h with mHeap := h.mHeap.set slot { x with interval := interval } }) :=
  bind_eq_ok.mpr ⟨_, hs.slotOf_of_mem hx, bind_eq_ok.mpr ⟨x, node_eq_ok.mpr hx, rfl⟩⟩

theorem resetInterval_of_forall_ne {timerId : ℤ} (interval : TimeValue)
    (hne : ∀ x ∈ h.mHeap, (x.timerId : ℤ) ≠ timerId) :
    h.resetInterval timerId interval =
      if timerId = h.mMaxSize then .error .outOfBounds else .ok (false, h) := by
  rw [resetInterval, hs.slotOf_of_forall_ne hne]
  split_ifs <;> rfl

end

end Sound

theorem Exact.set_node {h : TimerHeap τ ρ} (he : h.Exact) (slot : ℕ) (x : TimerNode τ ρ) :
    Exact { h with mHeap := h.mHeap.set slot x } := by
  refine ⟨he.two_le, ?_, he.limbo⟩
  change (h.mHeap.set slot x).length + h.mCurLimbo + 2 ≤ h.mMaxSize
  rw [length_set]
  exact he.room

theorem lt_cancelRounds (h : TimerHeap τ ρ) (p : TimerNode τ ρ → Bool) :
    (h.mHeap.filter p).length * (h.mCurSize + 1) + h.mCurSize < h.cancelRounds := by
  have hle : (h.mHeap.filter p).length ≤ h.mCurSize := length_filter_le _ _
  have hmul := Nat.mul_le_mul_right (h.mCurSize + 1) hle
  rw [cancelRounds, pow_two, Nat.succ_mul h.mCurSize]
  omega

namespace Sound

variable {out : List (TimerNode τ ρ)} {h : TimerHeap τ ρ} [DecidableEq τ]

theorem cancelLoop (hs : Sound out h) (type : τ) {rounds i : ℕ} (count : ℕ) (hi : i ≤ h.mCurSize)
    (hpassed : ∀ j < i, ∀ x, h.mHeap[j]? = some x → x.type ≠ type)
    (hrounds : (h.mHeap.filter (·.type = type)).length * (h.mCurSize + 1) + (h.mCurSize - i) <
      rounds) :
    ∃ xs h', cancelLoop type rounds i count h = .ok (count + xs.length, h') ∧
      h.Cancelled xs h' ∧ (∀ x ∈ xs, x.type = type) ∧ (∀ x ∈ h'.mHeap, x.type ≠ type) ∧
      Sound out h' ∧ (h.Exact → h'.Exact) := by
  induction rounds generalizing h i count with
  | zero => cases hrounds
  | succ rounds ih =>
    rw [TimerHeap.cancelLoop]
    split_ifs with hlt
    · obtain ⟨x, hx⟩ : ∃ x, h.mHeap[i]? = some x := ⟨_, getElem?_eq_getElem hlt⟩
      by_cases htype : x.type = type
      · obtain ⟨h₁, h₂, hremove, hfree, hc, hs₂, he₂⟩ := hs.remove_freeNode hx
        have hperm : (x :: h₂.mHeap).Perm h.mHeap := hc.perm
        have hfilter : (h₂.mHeap.filter (·.type = type)).length + 1 =
            (h.mHeap.filter (·.type = type)).length := by
          rw [← (hperm.filter _).length_eq, filter_cons_of_pos (by simpa using htype)]
          rfl
        have hlength : h₂.mCurSize + 1 = h.mCurSize := hperm.length_eq
        rw [← hfilter, ← hlength, Nat.succ_mul, Nat.mul_succ] at hrounds
        obtain ⟨xs, h', hloop, hc', hxs, hnone, hs', he'⟩ :=
          ih (i := 0) hs₂ (count + 1) (Nat.zero_le _)
            (fun j hj => absurd hj (Nat.not_lt_zero j)) (by omega)
        refine ⟨x :: xs, h', bind_eq_ok.mpr ⟨x, node_eq_ok.mpr hx, (if_pos htype).trans ?_⟩,
          hc.cons hs.valid hc', forall_mem_cons.mpr ⟨htype, hxs⟩, hnone, hs',
          fun he => he' (he₂ he)⟩
        refine bind_eq_ok.mpr ⟨_, hremove, bind_eq_ok.mpr ⟨_, hfree, ?_⟩⟩
        rw [length_cons, ← Nat.add_assoc, Nat.add_right_comm]
        exact hloop
      · obtain ⟨xs, h', hloop, hrest⟩ := ih hs count hlt (fun j hj y hy => by
          rcases Nat.lt_succ_iff_lt_or_eq.mp hj with hj | rfl
          · exact hpassed j hj y hy
          · obtain rfl := Option.some.inj (hx.symm.trans hy)
            exact htype) (by omega)
        exact ⟨xs, h', bind_eq_ok.mpr ⟨x, node_eq_ok.mpr hx, (if_neg htype).trans hloop⟩, hrest⟩
    · refine ⟨[], h, rfl, .refl h, by simp, fun x hx => ?_, hs, id⟩
      obtain ⟨j, hj⟩ := List.mem_iff_getElem?.mp hx
      exact hpassed j ((List.getElem?_eq_some_iff.mp hj).1.trans_le (not_lt.mp hlt)) x hj

theorem cancelLoop_zero (hs : Sound out h) (type : τ) {rounds : ℕ}
    (hrounds : h.cancelRounds ≤ rounds) :
    ∃ xs h', TimerHeap.cancelLoop type rounds 0 0 h = .ok (xs.length, h') ∧
      h.Cancelled xs h' ∧ (∀ x ∈ xs, x.type = type) ∧ (∀ x ∈ h'.mHeap, x.type ≠ type) ∧
      Sound out h' ∧ (h.Exact → h'.Exact) := by
  have hlt := (h.lt_cancelRounds (·.type = type)).trans_le hrounds
  obtain ⟨xs, h', hloop, hrest⟩ := hs.cancelLoop type (i := 0) 0 (Nat.zero_le _)
    (fun j hj => absurd hj (Nat.not_lt_zero j)) hlt
  rw [Nat.zero_add] at hloop
  exact ⟨xs, h', hloop, hrest⟩

end Sound

end TimerHeap

end Icm.Timer
