import Icm.Lib.FreeIds
import Icm.Timer.TimerHeap

/-!
# The ids of the timers

Methods `popFreelist`, `pushFreelist` and `scheduleI` of class `TimerHeapT`: a new timer gets a free
id, which the cursor `mTimerIdsCurr` finds.
-/

namespace Icm.Timer

open Icm.Lib Icm.Lib.Heap Icm.Lib.FreeIds List Finset Option

namespace TimerHeap

variable {τ ρ : Type}

def skipTaken (ids : List ℤ) : ℕ → ℕ → ℕ
  | 0, curr => curr
  | rounds + 1, curr =>
    match ids[curr]? with
    | some entry => if 0 ≤ entry ∨ entry = -2 then skipTaken ids rounds (curr + 1) else curr
    | none => curr

def popFreelist (h : TimerHeap τ ρ) : ℕ × TimerHeap τ ρ :=
  let curr := skipTaken h.mTimerIds h.mMaxSize (h.mTimerIdsCurr + 1)
  if curr = h.mMaxSize then
    (h.mTimerIdsMinFree,
      { h with mTimerIdsCurr := h.mTimerIdsMinFree, mTimerIdsMinFree := h.mMaxSize })
  else (curr, { h with mTimerIdsCurr := curr })

def scheduleI (h : TimerHeap τ ρ) (type : τ) (act : ρ) (futureTime interval : TimeValue) :
    Except Fault (Option ℕ × TimerHeap τ ρ) :=
  if h.mCurSize + h.mCurLimbo < h.mMaxSize then do
    let r := h.popFreelist
    let h ← r.2.insert
      { type := type, act := act, timerValue := futureTime, interval := interval, timerId := r.1 }
    return (some r.1, h)
  else .ok (none, h)

def freeIds (h : TimerHeap τ ρ) : Finset ℕ :=
  (Finset.range h.mMaxSize).filter fun i => ∃ entry ∈ h.mTimerIds[i]?, entry < 0 ∧ entry ≠ -2

def limboIds (h : TimerHeap τ ρ) : Finset ℕ :=
  (Finset.range h.mMaxSize).filter fun i => h.mTimerIds[i]? = some (-2)

section Entries

variable {h h' : TimerHeap τ ρ} {x : TimerNode τ ρ} {i : ℕ}

theorem mem_freeIds :
    i ∈ h.freeIds ↔ ∃ entry, h.mTimerIds[i]? = some entry ∧ entry < 0 ∧ entry ≠ -2 := by
  refine Finset.mem_filter.trans ⟨And.right, fun hi => ⟨?_, hi⟩⟩
  obtain ⟨entry, hentry, -⟩ := hi
  exact Finset.mem_range.mpr (List.getElem?_eq_some_iff.mp hentry).1

theorem mem_limboIds : i ∈ h.limboIds ↔ h.mTimerIds[i]? = some (-2) := by
  refine Finset.mem_filter.trans ⟨And.right, fun hi => ⟨?_, hi⟩⟩
  exact Finset.mem_range.mpr (List.getElem?_eq_some_iff.mp hi).1

theorem lt_of_mem_freeIds (hi : i ∈ h.freeIds) : i < h.mMaxSize :=
  Finset.mem_range.mp (Finset.mem_filter.mp hi).1

theorem lt_of_mem_limboIds (hi : i ∈ h.limboIds) : i < h.mMaxSize :=
  Finset.mem_range.mp (Finset.mem_filter.mp hi).1

theorem Valid.entry_of_mem (hv : h.Valid) (hx : x ∈ h.mHeap) :
    ∃ slot : ℕ, h.mTimerIds[x.timerId]? = some (slot : ℤ) := by
  obtain ⟨slot, hslot⟩ := mem_iff_getElem?.mp hx
  exact ⟨slot, hv.located slot x hslot⟩

theorem Removed.entry_iff (hr : h.Removed x h') (hv : h.Valid) {entry : ℤ} (hneg : entry < 0) :
    h'.mTimerIds[i]? = some entry ↔
      i = x.timerId ∧ entry = -2 ∨ h.mTimerIds[i]? = some entry := by
  by_cases hi : ∃ y ∈ h.mHeap, y.timerId = i
  · obtain ⟨y, hy, rfl⟩ := hi
    obtain ⟨slot, hslot⟩ := hv.entry_of_mem hy
    rw [hslot]
    have hne : (slot : ℤ) ≠ entry := by omega
    rcases mem_cons.mp (hr.perm.mem_iff.mpr hy) with rfl | hy'
    · rw [hr.entry]
      simp only [some.injEq, hne, or_false, true_and]
      exact eq_comm
    · obtain ⟨slot', hslot'⟩ := hr.valid.entry_of_mem hy'
      have hne' : (slot' : ℤ) ≠ entry := by omega
      rw [hslot']
      simp [hne, hne', hv.timerId_ne hr.perm y hy']
  · have hi : ∀ y ∈ h.mHeap, y.timerId ≠ i := by simpa using hi
    rw [hr.others i hi]
    have hne : i ≠ x.timerId := fun hix => hi x (hr.perm.mem_iff.mp mem_cons_self) hix.symm
    simp [hne]

section

variable (hi : h.Inserted x h') (hv : h.Valid)
include hi hv

theorem Inserted.entry_iff {entry : ℤ} (hneg : entry < 0) :
    h'.mTimerIds[i]? = some entry ↔
      i ≠ x.timerId ∧ h.makeRoom.mTimerIds[i]? = some entry := by
  by_cases hmem : ∃ y ∈ h'.mHeap, y.timerId = i
  · obtain ⟨y, hy, rfl⟩ := hmem
    obtain ⟨slot, hslot⟩ := hi.valid.entry_of_mem hy
    have hne : (slot : ℤ) ≠ entry := by omega
    rw [hslot]
    rcases mem_cons.mp (hi.perm.mem_iff.mp hy) with rfl | hy'
    · simp [hne]
    · obtain ⟨slot', hslot'⟩ := hv.entry_of_mem hy'
      have hne' : (slot' : ℤ) ≠ entry := by omega
      obtain ⟨more, minFree, hroom⟩ := h.makeRoom_eq
      rw [hroom, getElem?_append_of_eq_some hslot']
      simp [hne, hne']
  · have hmem : ∀ y ∈ h'.mHeap, y.timerId ≠ i := by simpa using hmem
    have hne : i ≠ x.timerId := fun hix => hmem x (hi.perm.mem_iff.mpr mem_cons_self) hix.symm
    rw [hi.others i hmem]
    simp [hne]

theorem Inserted.mem_freeIds :
    i ∈ h'.freeIds ↔ i ≠ x.timerId ∧ i ∈ h.makeRoom.freeIds := by
  rw [TimerHeap.mem_freeIds, TimerHeap.mem_freeIds, ← exists_and_left]
  refine exists_congr fun entry => ?_
  constructor
  · rintro ⟨hentry, hneg, hne⟩
    obtain ⟨hix, hentry⟩ := (hi.entry_iff hv hneg).mp hentry
    exact ⟨hix, hentry, hneg, hne⟩
  · rintro ⟨hix, hentry, hneg, hne⟩
    exact ⟨(hi.entry_iff hv hneg).mpr ⟨hix, hentry⟩, hneg, hne⟩

theorem Inserted.mem_limboIds :
    i ∈ h'.limboIds ↔ i ≠ x.timerId ∧ i ∈ h.makeRoom.limboIds := by
  rw [TimerHeap.mem_limboIds, TimerHeap.mem_limboIds]
  exact hi.entry_iff hv (by decide)

end

theorem Removed.freeIds_eq (hr : h.Removed x h') (hv : h.Valid) : h'.freeIds = h.freeIds := by
  ext i
  rw [mem_freeIds, mem_freeIds]
  refine exists_congr fun entry => and_congr_left fun ⟨hneg, hne⟩ => ?_
  rw [hr.entry_iff hv hneg]
  exact or_iff_right fun h => hne h.2

theorem Removed.card_limboIds (hr : h.Removed x h') (hv : h.Valid) :
    h'.limboIds.card = h.limboIds.card + 1 := by
  have hlimbo : h'.limboIds = Insert.insert x.timerId h.limboIds := by
    ext i
    rw [TimerHeap.mem_limboIds, hr.entry_iff hv (by decide), mem_insert,
      TimerHeap.mem_limboIds]
    simp
  have hnotMem : x.timerId ∉ h.limboIds := fun hmem => by
    obtain ⟨slot, hslot⟩ := hv.entry_of_mem (hr.perm.mem_iff.mp mem_cons_self)
    rw [TimerHeap.mem_limboIds, hslot, some.injEq] at hmem
    omega
  rw [hlimbo, card_insert_of_notMem hnotMem]

theorem growHeap_entry {entry : ℤ} : h.growHeap.mTimerIds[i]? = some entry ↔
    h.mTimerIds[i]? = some entry ∨
      h.mMaxSize ≤ i ∧ i < h.mMaxSize + h.mMaxSize ∧ entry = -((i : ℤ) + 1) := by
  rw [growHeap]
  dsimp only
  by_cases hi : i < h.mMaxSize
  · rw [getElem?_append_left hi]
    simp [hi]
  · have hle := not_lt.mp hi
    have hnone : h.mTimerIds[i]? = none := getElem?_eq_none hle
    rw [getElem?_append_right hle, getElem?_map, hnone]
    by_cases hlt : i < h.mMaxSize + h.mMaxSize
    · have hindex : h.mMaxSize + (i - h.mMaxSize) = i := by omega
      rw [getElem?_range (show i - h.mTimerIds.length < h.mMaxSize by
        change i - h.mMaxSize < h.mMaxSize; omega)]
      simp only [map_some, some.injEq, reduceCtorEq, false_or, hle, hlt, true_and]
      rw [← mMaxSize, hindex]
      exact eq_comm
    · rw [getElem?_eq_none (by rw [length_range]; change _ ≤ i - h.mMaxSize; omega)]
      simp [hlt]

def Owned (h : TimerHeap τ ρ) : Prop :=
  ∀ i slot : ℕ, h.mTimerIds[i]? = some (slot : ℤ) → ∃ x ∈ h.mHeap, x.timerId = i

theorem Valid.mMaxSize_eq (hv : h.Valid) (howned : h.Owned) :
    h.mMaxSize = h.mCurSize + h.limboIds.card + h.freeIds.card := by
  obtain ⟨heapIds, hheapIds⟩ : ∃ s, s = (h.mHeap.map TimerNode.timerId).toFinset := ⟨_, rfl⟩
  have hmem : ∀ i, i ∈ heapIds ↔ ∃ x ∈ h.mHeap, x.timerId = i := by simp [hheapIds]
  have hcard : heapIds.card = h.mCurSize := by
    rw [hheapIds, toFinset_card_of_nodup hv.located.nodup, length_map]
    rfl
  have hslot : ∀ i ∈ heapIds, ∃ slot : ℕ, h.mTimerIds[i]? = some (slot : ℤ) := fun i hi => by
    obtain ⟨x, hx, rfl⟩ := (hmem i).mp hi
    exact hv.entry_of_mem hx
  have hdisjoint : Disjoint heapIds h.limboIds := disjoint_left.mpr fun i hi hi' => by
    obtain ⟨slot, hslot⟩ := hslot i hi
    rw [mem_limboIds, hslot, some.injEq] at hi'
    omega
  have hdisjoint' : Disjoint (heapIds ∪ h.limboIds) h.freeIds :=
    disjoint_left.mpr fun i hi hi' => by
      obtain ⟨entry, hentry, hneg, hne⟩ := mem_freeIds.mp hi'
      rcases mem_union.mp hi with hi | hi
      · obtain ⟨slot, hslot⟩ := hslot i hi
        rw [hslot, some.injEq] at hentry
        omega
      · rw [mem_limboIds, hentry, some.injEq] at hi
        exact hne hi
  have hall : Finset.range h.mMaxSize = heapIds ∪ h.limboIds ∪ h.freeIds := by
    ext i
    simp only [Finset.mem_union, Finset.mem_range]
    constructor
    · intro hi
      obtain ⟨entry, hentry⟩ : ∃ entry, h.mTimerIds[i]? = some entry :=
        ⟨_, getElem?_eq_getElem hi⟩
      rcases le_or_gt 0 entry with hnonneg | hneg
      · obtain ⟨slot, rfl⟩ := Int.eq_ofNat_of_zero_le hnonneg
        exact .inl (.inl ((hmem i).mpr (howned i slot hentry)))
      · by_cases hlimbo : entry = -2
        · exact .inl (.inr (mem_limboIds.mpr (hlimbo ▸ hentry)))
        · exact .inr (mem_freeIds.mpr ⟨entry, hentry, hneg, hlimbo⟩)
    · rintro ((hi | hi) | hi)
      · obtain ⟨slot, hslot⟩ := hslot i hi
        exact (List.getElem?_eq_some_iff.mp hslot).1
      · exact lt_of_mem_limboIds hi
      · exact lt_of_mem_freeIds hi
  rw [← hcard, ← card_union_of_disjoint hdisjoint,
    ← card_union_of_disjoint hdisjoint', ← hall, card_range]

end Entries

/-- The invariant of a heap, with the timers that are out of it. -/
structure Sound (out : List (TimerNode τ ρ)) (h : TimerHeap τ ρ) : Prop where
  valid : h.Valid
  owned : h.Owned
  entry : ∀ x ∈ out, h.mTimerIds[x.timerId]? = some (-2)
  admitted : ∀ x ∈ out, x.Admitted h.mMaxSize
  nodup : (out.map TimerNode.timerId).Nodup
  mCurLimbo_eq : h.mCurLimbo = out.length
  tracked : Tracked h.freeIds h.mMaxSize h.mTimerIdsCurr h.mTimerIdsMinFree
  curr_lt : 0 < h.mMaxSize → h.mTimerIdsCurr < h.mMaxSize
  few : (lost h.freeIds h.mTimerIdsCurr h.mTimerIdsMinFree).card + h.limboIds.card ≤
    h.mCurLimbo + 1
  room : h.HasRoom ∨ h.mMaxSize ≤ 2

/-- What is kept in addition from two slots on: there is room, and only the ids of timers that are
out of the heap are in limbo. -/
structure Exact (h : TimerHeap τ ρ) : Prop where
  two_le : 2 ≤ h.mMaxSize
  room : h.HasRoom
  limbo : h.limboIds.card = h.mCurLimbo

structure Prepared (out : List (TimerNode τ ρ)) (h : TimerHeap τ ρ) (id : ℕ) : Prop where
  valid : h.Valid
  owned : h.Owned
  fresh : ∀ y ∈ h.mHeap, y.timerId ≠ id
  entry : ∀ x ∈ out, h.mTimerIds[x.timerId]? = some (-2)
  fresh_out : ∀ x ∈ out, x.timerId ≠ id
  admitted : ∀ x ∈ out, x.Admitted h.mMaxSize
  nodup : (out.map TimerNode.timerId).Nodup
  mCurLimbo_eq : h.mCurLimbo = out.length
  tracked : Tracked (h.freeIds.erase id) h.mMaxSize h.mTimerIdsCurr h.mTimerIdsMinFree
  curr_le : h.mTimerIdsCurr ≤ h.mMaxSize
  curr_eq : h.mTimerIdsCurr = h.mMaxSize → id = h.mMaxSize
  few : (lost (h.freeIds.erase id) h.mTimerIdsCurr h.mTimerIdsMinFree).card +
    (h.limboIds.erase id).card ≤ h.mCurLimbo + 1
  full : h.mMaxSize ≤ h.mCurSize + h.mCurLimbo + 2 →
    (h.freeIds.erase id).card + (h.limboIds.erase id).card ≤ h.mCurLimbo + 1
  id_le : id < h.mMaxSize ∨ id = h.mMaxSize ∧ h.mMaxSize ≤ h.mCurSize + h.mCurLimbo + 2
  used_lt : h.mCurSize + h.mCurLimbo < h.mMaxSize

theorem entry_new {size i : ℕ} {entry : ℤ} :
    (new size : TimerHeap τ ρ).mTimerIds[i]? = some entry ↔
      i < (new size : TimerHeap τ ρ).mMaxSize ∧ entry = -1 := by
  rw [new, mMaxSize]
  dsimp only
  rw [getElem?_replicate, length_replicate]
  split_ifs with hi
  · simp only [hi, true_and, some.injEq]
    exact eq_comm
  · simp only [hi, false_and]

theorem limboIds_new (size : ℕ) : (new size : TimerHeap τ ρ).limboIds = ∅ := by
  refine eq_empty_of_forall_notMem fun i hi => ?_
  rw [mem_limboIds, entry_new] at hi
  exact absurd hi.2 (by decide)

theorem sound_new (size : ℕ) : Sound [] (new size : TimerHeap τ ρ) := by
  have hlost : lost (new size : TimerHeap τ ρ).freeIds 0 0 = ∅ :=
    eq_empty_of_forall_notMem fun i hi => absurd (mem_lost.mp hi).2.2 (Nat.not_lt_zero i)
  refine ⟨valid_new size, fun i slot hi => ?_, by simp, by simp, nodup_nil, rfl,
    ⟨fun i hi => ?_, Nat.zero_le _, fun hpos => ⟨?_, le_rfl⟩⟩, id, ?_, ?_⟩
  · rw [entry_new] at hi
    omega
  · exact lt_of_mem_freeIds hi
  · exact mem_freeIds.mpr ⟨-1, entry_new.mpr ⟨hpos, rfl⟩, by decide, by decide⟩
  · change (lost (new size).freeIds 0 0).card + _ ≤ _
    rw [hlost, limboIds_new]
    exact Nat.zero_le _
  · rw [HasRoom]
    change 0 + 0 + 2 ≤ _ ∨ _
    omega

theorem exact_new {size : ℕ} (hsize : 2 ≤ size) : (new size : TimerHeap τ ρ).Exact := by
  have hmax : 2 ≤ (new size : TimerHeap τ ρ).mMaxSize := by
    rw [mMaxSize, new, length_replicate]
    omega
  refine ⟨hmax, hmax, ?_⟩
  rw [limboIds_new]
  rfl

section Pop

variable {out : List (TimerNode τ ρ)} {h : TimerHeap τ ρ}

theorem skipTaken_spec (h : TimerHeap τ ρ) (rounds curr : ℕ) (hrounds : h.mMaxSize ≤ curr + rounds)
    (hcurr : curr ≤ h.mMaxSize) :
    curr ≤ skipTaken h.mTimerIds rounds curr ∧
      (∀ i ∈ h.freeIds, curr ≤ i → skipTaken h.mTimerIds rounds curr ≤ i) ∧
      (skipTaken h.mTimerIds rounds curr = h.mMaxSize ∨
        skipTaken h.mTimerIds rounds curr ∈ h.freeIds) := by
  induction rounds generalizing curr with
  | zero =>
    obtain rfl : curr = h.mMaxSize := by omega
    exact ⟨le_rfl, fun _ _ hi => hi, .inl rfl⟩
  | succ rounds ih =>
    rw [skipTaken]
    split
    · rename_i entry hentry
      have hlt : curr < h.mMaxSize := (List.getElem?_eq_some_iff.mp hentry).1
      split_ifs with htaken
      · obtain ⟨hle, hpassed, hend⟩ := ih (curr + 1) (by omega) hlt
        refine ⟨by omega, fun i hi hcurr => hpassed i hi (lt_of_le_of_ne hcurr ?_), hend⟩
        rintro rfl
        obtain ⟨entry', hentry', hneg, hne⟩ := mem_freeIds.mp hi
        obtain rfl := some.inj (hentry.symm.trans hentry')
        omega
      · refine ⟨le_rfl, fun _ _ hi => hi, .inr (mem_freeIds.mpr ⟨entry, hentry, ?_⟩)⟩
        omega
    · rename_i hnone
      have hle : h.mMaxSize ≤ curr := getElem?_eq_none_iff.mp hnone
      exact ⟨le_rfl, fun _ _ hi => hi, .inl (by omega)⟩

theorem Sound.popFreelist_cases (hs : Sound out h) (hpos : 0 < h.mMaxSize) :
    ∃ curr minFree,
      h.popFreelist.2 = { h with mTimerIdsCurr := curr, mTimerIdsMinFree := minFree } ∧
      curr = h.popFreelist.1 ∧
      Tracked (h.freeIds.erase h.popFreelist.1) h.mMaxSize curr minFree ∧
      lost (h.freeIds.erase h.popFreelist.1) curr minFree ⊆
        lost h.freeIds h.mTimerIdsCurr h.mTimerIdsMinFree ∧
      (h.popFreelist.1 ∈ h.freeIds ∨ h.popFreelist.1 = h.mMaxSize ∧
        h.freeIds ⊆ lost h.freeIds h.mTimerIdsCurr h.mTimerIdsMinFree) := by
  have hcurr := hs.curr_lt hpos
  obtain ⟨hle, hpassed, hend⟩ :=
    skipTaken_spec h h.mMaxSize (h.mTimerIdsCurr + 1) (by omega) hcurr
  rw [popFreelist]
  split_ifs with hmax
  · have hnone : ∀ i ∈ h.freeIds, i ≤ h.mTimerIdsCurr := fun i hi => by
      by_contra hgt
      have := hpassed i hi (by omega)
      have := hs.tracked.lt i hi
      omega
    obtain ⟨htracked, hlost⟩ := hs.tracked.wrap hnone
    refine ⟨_, _, rfl, rfl, htracked, hlost, ?_⟩
    rcases hs.tracked.le.lt_or_eq with hmin | hmin
    · exact .inl (hs.tracked.remembered hmin).1
    · exact .inr ⟨hmin, hs.tracked.subset_lost hmin.ge hnone⟩
  · have hfree := hend.resolve_left hmax
    obtain ⟨htracked, hlost⟩ := hs.tracked.march hle hpassed
    exact ⟨_, _, rfl, rfl, htracked, hlost, .inl hfree⟩

theorem Sound.popFreelist (hs : Sound out h) (hused : h.mCurSize + h.mCurLimbo < h.mMaxSize) :
    Prepared out h.popFreelist.2 h.popFreelist.1 := by
  obtain ⟨curr, minFree, heq, hcurr, htracked, hlost, hid⟩ :=
    hs.popFreelist_cases (by omega)
  rw [heq]
  generalize h.popFreelist.1 = id at *
  have hentry : ∀ entry, h.mTimerIds[id]? = some entry → entry < 0 ∧ entry ≠ -2 := by
    intro entry hentry
    rcases hid with hfree | ⟨rfl, -⟩
    · obtain ⟨entry', hentry', hentry''⟩ := mem_freeIds.mp hfree
      obtain rfl := some.inj (hentry.symm.trans hentry')
      exact hentry''
    · exact absurd (List.getElem?_eq_some_iff.mp hentry).1 (lt_irrefl _)
  have hcount := hs.valid.mMaxSize_eq hs.owned
  have hfew := hs.few
  -- One of the ids that are free is given out, or there are few of them.
  have hothers : id < h.mMaxSize ∧ (h.freeIds.erase id).card + 1 = h.freeIds.card ∨
      id = h.mMaxSize ∧ (h.freeIds.erase id).card + h.limboIds.card ≤ h.mCurLimbo + 1 ∧
        h.mMaxSize ≤ h.mCurSize + h.mCurLimbo + 1 := by
    rcases hid with hfree | ⟨hmax, hsubset⟩
    · exact .inl ⟨hs.tracked.lt id hfree, card_erase_add_one hfree⟩
    · have hle := card_le_card hsubset
      have hle' := card_le_card (erase_subset id h.freeIds)
      exact .inr ⟨hmax, by omega, by omega⟩
  have hlimbo := card_le_card (erase_subset id h.limboIds)
  have hle : id ≤ h.mMaxSize := by omega
  refine ⟨⟨hs.valid.ordered, hs.valid.located, hs.valid.fits, hs.valid.admitted⟩, hs.owned,
    fun y hy hyid => ?_, hs.entry, fun x hx hxid => ?_, hs.admitted, hs.nodup, hs.mCurLimbo_eq,
    htracked, hcurr.le.trans hle, fun hmax => hcurr.symm.trans hmax, ?_, fun hfull => ?_, ?_, hused⟩
  · obtain ⟨slot, hslot⟩ := hs.valid.entry_of_mem hy
    have := (hentry slot (hyid ▸ hslot)).1
    omega
  · exact (hentry (-2) (hxid ▸ hs.entry x hx)).2 rfl
  · have hle := card_le_card hlost
    change (lost (h.freeIds.erase id) curr minFree).card + (h.limboIds.erase id).card ≤
      h.mCurLimbo + 1
    omega
  · change (h.freeIds.erase id).card + (h.limboIds.erase id).card ≤ h.mCurLimbo + 1
    change h.mMaxSize ≤ h.mCurSize + h.mCurLimbo + 2 at hfull
    omega
  · change id < h.mMaxSize ∨ id = h.mMaxSize ∧ h.mMaxSize ≤ h.mCurSize + h.mCurLimbo + 2
    omega

theorem Sound.popFreelist_lt (hs : Sound out h) (hroom : h.HasRoom) :
    h.popFreelist.1 < h.mMaxSize := by
  rw [HasRoom] at hroom
  obtain ⟨curr, minFree, -, -, -, -, hfree | ⟨-, hsubset⟩⟩ := hs.popFreelist_cases (by omega)
  · exact hs.tracked.lt _ hfree
  · have hcount := hs.valid.mMaxSize_eq hs.owned
    have hle := card_le_card hsubset
    have hfew := hs.few
    omega

end Pop

namespace Prepared

variable {out : List (TimerNode τ ρ)} {h h' : TimerHeap τ ρ} {x : TimerNode τ ρ} {id : ℕ}

theorem mMaxSize_lt (hp : Prepared out h id)
    (hfull : h.mMaxSize ≤ h.mCurSize + h.mCurLimbo + 2) : h.mMaxSize < 2 ^ 31 := by
  have hadmitted : ∀ x ∈ h.mHeap ++ out, x.Admitted h.mMaxSize := fun x hx =>
    (mem_append.mp hx).elim (hp.valid.admitted x) (hp.admitted x)
  have hnodup : ((h.mHeap ++ out).map TimerNode.timerId).Nodup := by
    rw [map_append, nodup_append]
    refine ⟨hp.valid.located.nodup, hp.nodup, fun i hi j hj hij => ?_⟩
    obtain ⟨x, hx, rfl⟩ := mem_map.mp hi
    obtain ⟨y, hy, rfl⟩ := mem_map.mp hj
    obtain ⟨slot, hslot⟩ := hp.valid.entry_of_mem hx
    rw [hij, hp.entry y hy, some.injEq] at hslot
    omega
  have hlength : h.mCurSize + h.mCurLimbo ≤ ((h.mMaxSize : ℤ).bmod (2 ^ 32)).toNat := by
    rw [hp.mCurLimbo_eq, mCurSize, ← length_append,
      ← length_map (f := TimerNode.timerId), ← toFinset_card_of_nodup hnodup]
    refine (card_le_card (t := range _) fun i hi => ?_).trans_eq (card_range _)
    obtain ⟨y, hy, rfl⟩ := mem_map.mp (mem_toFinset.mp hi)
    have := hadmitted y hy
    rw [TimerNode.Admitted] at this
    exact Finset.mem_range.mpr (by omega)
  rw [Int.bmod_def] at hlength
  split_ifs at hlength <;> omega

theorem timerId_lt (hp : Prepared out h id) : id < h.makeRoom.mMaxSize := by
  have hlen := h.mMaxSize_growHeap
  have hid := hp.id_le
  have hused := hp.used_lt
  rcases h.makeRoom_cases with ⟨-, hgrow⟩ | ⟨hroom, hsame⟩
  · rw [hgrow]
    omega
  · rw [hsame]
    omega

theorem admitted_of_lt (hp : Prepared out h x.timerId) (hlt : h.makeRoom.mMaxSize < 2 ^ 31) :
    x.Admitted h.makeRoom.mMaxSize := by
  have hid := hp.timerId_lt
  rw [TimerNode.Admitted, Int.bmod_def]
  split_ifs <;> omega

theorem admitted_makeRoom (hp : Prepared out h x.timerId)
    (hx : x.Admitted h.makeRoom.mMaxSize) {y : TimerNode τ ρ} (hy : y.Admitted h.mMaxSize) :
    y.Admitted h.makeRoom.mMaxSize := by
  rcases h.makeRoom_cases with ⟨hfull, hgrow⟩ | ⟨-, hsame⟩
  · have hlt := hp.mMaxSize_lt hfull
    rw [hgrow, mMaxSize_growHeap, TimerNode.Admitted, Int.bmod_def] at hx ⊢
    have hy' := hy.lt
    split_ifs at hx ⊢ <;> omega
  · rwa [hsame]

end Prepared

section Growth

variable {h : TimerHeap τ ρ} {i : ℕ}

theorem mem_freeIds_growHeap : i ∈ h.growHeap.freeIds ↔
    i ∈ h.freeIds ∨ h.mMaxSize ≤ i ∧ i < h.mMaxSize + h.mMaxSize ∧ i ≠ 1 := by
  rw [mem_freeIds, mem_freeIds]
  constructor
  · rintro ⟨entry, hentry, hneg, hne⟩
    rcases growHeap_entry.mp hentry with hentry | ⟨hle, hlt, rfl⟩
    · exact .inl ⟨entry, hentry, hneg, hne⟩
    · exact .inr ⟨hle, hlt, by omega⟩
  · rintro (⟨entry, hentry, hneg, hne⟩ | ⟨hle, hlt, hne⟩)
    · exact ⟨entry, growHeap_entry.mpr (.inl hentry), hneg, hne⟩
    · exact ⟨_, growHeap_entry.mpr (.inr ⟨hle, hlt, rfl⟩), by omega, by omega⟩

theorem mem_limboIds_growHeap : i ∈ h.growHeap.limboIds ↔
    i ∈ h.limboIds ∨ h.mMaxSize ≤ i ∧ i < h.mMaxSize + h.mMaxSize ∧ i = 1 := by
  rw [mem_limboIds, mem_limboIds, growHeap_entry]
  refine or_congr_right (and_congr_right fun _ => and_congr_right fun _ => ?_)
  omega

end Growth

namespace Prepared

variable {out : List (TimerNode τ ρ)} {h h' : TimerHeap τ ρ} {x : TimerNode τ ρ}

section

variable (hp : Prepared out h x.timerId)
include hp

theorem owned_of_inserted (hi : h.Inserted x h') : h'.Owned := by
  intro i slot hslot
  by_contra hmem
  have hmem : ∀ y ∈ h'.mHeap, y.timerId ≠ i := by simpa using hmem
  have hold : h.mTimerIds[i]? = some (slot : ℤ) := by
    rw [hi.others i hmem] at hslot
    rcases h.makeRoom_cases with ⟨-, hgrow⟩ | ⟨-, hsame⟩
    · rw [hgrow] at hslot
      exact (growHeap_entry.mp hslot).resolve_right (by omega)
    · rwa [hsame] at hslot
  obtain ⟨y, hy, hyi⟩ := hp.owned i slot hold
  exact hmem y (hi.perm.mem_iff.mpr (mem_cons_of_mem _ hy)) hyi

theorem card_limboIds_le (hi : h.Inserted x h')
    (hfull : h.mMaxSize ≤ h.mCurSize + h.mCurLimbo + 2) :
    (h.freeIds.erase x.timerId).card + h'.limboIds.card ≤ h.mCurLimbo + 1 := by
  have hgrow : h.makeRoom = h.growHeap := if_pos hfull
  have hmem : ∀ i, i ∈ h'.limboIds ↔ i ≠ x.timerId ∧
      (i ∈ h.limboIds ∨ h.mMaxSize ≤ i ∧ i < h.mMaxSize + h.mMaxSize ∧ i = 1) := fun i => by
    rw [hi.mem_limboIds hp.valid, hgrow, mem_limboIds_growHeap]
  have hused := hp.used_lt
  by_cases hone : h.mMaxSize = 1 ∧ x.timerId = 0
  · -- The only id was given out, and the entry of the new one is `-2`.
    have hfree : h.freeIds.erase x.timerId = ∅ := eq_empty_of_forall_notMem fun i hi => by
      have := hp.tracked.lt i hi
      have := ne_of_mem_erase hi
      omega
    have hlimbo : h'.limboIds ⊆ {1} := fun i hi => by
      obtain ⟨hne, hold | ⟨-, -, rfl⟩⟩ := (hmem i).mp hi
      · have := lt_of_mem_limboIds hold
        omega
      · exact Finset.mem_singleton_self 1
    have hle := Finset.card_le_card hlimbo
    rw [hfree, card_empty]
    rw [card_singleton] at hle
    omega
  · have hlimbo : h'.limboIds ⊆ h.limboIds.erase x.timerId := fun i hi => by
      obtain ⟨hne, hold | ⟨hle, hlt, rfl⟩⟩ := (hmem i).mp hi
      · exact mem_erase.mpr ⟨hne, hold⟩
      · have hid := hp.id_le
        omega
    have hle := card_le_card hlimbo
    have hcard := hp.full hfull
    omega

theorem tracked_of_inserted (hi : h.Inserted x h') :
    Tracked h'.freeIds h'.mMaxSize h'.mTimerIdsCurr h'.mTimerIdsMinFree ∧
      h'.mTimerIdsCurr < h'.mMaxSize ∧
      (lost h'.freeIds h'.mTimerIdsCurr h'.mTimerIdsMinFree).card + h'.limboIds.card ≤
        h'.mCurLimbo + 1 := by
  have hmem := fun i => hi.mem_freeIds (i := i) hp.valid
  have hused := hp.used_lt
  rw [hi.mMaxSize_eq, hi.mTimerIdsCurr_eq, hi.mTimerIdsMinFree_eq, hi.mCurLimbo_eq]
  rcases h.makeRoom_cases with ⟨hfull, hgrow⟩ | ⟨hroom, hsame⟩
  · have hminFree : h.growHeap.mTimerIdsMinFree = h.growHeap.mMaxSize := by
      rw [mMaxSize_growHeap, ← Nat.mul_two]
      rfl
    rw [hgrow, hminFree, mMaxSize_growHeap]
    have hcurr := hp.curr_le
    have hfree : ∀ i ∈ h'.freeIds, i ∈ h.freeIds.erase x.timerId ∨
        h.mTimerIdsCurr < i ∧ i < h.mMaxSize + h.mMaxSize := fun i hi => by
      rw [hmem, hgrow, mem_freeIds_growHeap] at hi
      obtain ⟨hne, hold | ⟨hle, hlt, -⟩⟩ := hi
      · exact .inl (mem_erase.mpr ⟨hne, hold⟩)
      · have hcurr' := hp.curr_eq
        exact .inr ⟨by omega, hlt⟩
    obtain ⟨htracked, hlost⟩ := hp.tracked.grow (Nat.le_add_left _ _) hfree
    refine ⟨htracked, by omega, ?_⟩
    have hle := card_le_card hlost
    have hcard := hp.card_limboIds_le hi hfull
    omega
  · have hfree : h'.freeIds = h.freeIds.erase x.timerId := by
      ext i
      rw [hmem, hsame, mem_erase]
    have hlimbo : h'.limboIds = h.limboIds.erase x.timerId := by
      ext i
      rw [hi.mem_limboIds hp.valid, hsame, mem_erase]
    rw [hsame, hfree, hlimbo]
    refine ⟨hp.tracked, lt_of_le_of_ne hp.curr_le fun hcurr => ?_, hp.few⟩
    have hid := hp.curr_eq hcurr
    have hid' := hp.id_le
    omega

theorem room_of_inserted (hi : h.Inserted x h')
    (htwo : 2 ≤ h.mMaxSize) : h'.HasRoom := by
  have hlength : h'.mCurSize = h.mCurSize + 1 := hi.perm.length_eq
  have hused := hp.used_lt
  have hlen := h.mMaxSize_growHeap
  rw [HasRoom, hi.mMaxSize_eq, hi.mCurLimbo_eq, hlength]
  rcases h.makeRoom_cases with ⟨hfull, hgrow⟩ | ⟨hroom, hsame⟩
  · rw [hgrow]
    omega
  · rw [hsame]
    omega

theorem sound_of_inserted (hx : x.Admitted h.makeRoom.mMaxSize)
    (hi : h.Inserted x h') : Sound out h' := by
  obtain ⟨htracked, hcurr, hfew⟩ := hp.tracked_of_inserted hi
  refine ⟨hi.valid, hp.owned_of_inserted hi, fun y hy => ?_, fun y hy => ?_, hp.nodup,
    hi.mCurLimbo_eq.trans hp.mCurLimbo_eq, htracked, fun _ => hcurr, hfew, ?_⟩
  · obtain ⟨more, minFree, hroom⟩ := h.makeRoom_eq
    refine (hi.entry_iff hp.valid (by decide)).mpr ⟨hp.fresh_out y hy, ?_⟩
    rw [hroom]
    exact getElem?_append_of_eq_some (hp.entry y hy)
  · rw [hi.mMaxSize_eq]
    exact hp.admitted_makeRoom hx (hp.admitted y hy)
  · by_cases htwo : 2 ≤ h.mMaxSize
    · exact .inl (hp.room_of_inserted hi htwo)
    · have hlen := h.mMaxSize_growHeap
      have hused := hp.used_lt
      rw [hi.mMaxSize_eq, show h.makeRoom = h.growHeap from if_pos (by omega)]
      omega

theorem exact_of_inserted (hi : h.Inserted x h')
    (htwo : 2 ≤ h.mMaxSize) (hlimbo : (h.limboIds.erase x.timerId).card = h.mCurLimbo) :
    h'.Exact := by
  refine ⟨htwo.trans hi.mMaxSize_le, hp.room_of_inserted hi htwo, ?_⟩
  rw [hi.mCurLimbo_eq, ← hlimbo]
  congr 1
  ext i
  rw [hi.mem_limboIds hp.valid, mem_erase]
  refine and_congr_right fun _ => ?_
  rcases h.makeRoom_cases with ⟨-, hgrow⟩ | ⟨-, hsame⟩
  · rw [hgrow, mem_limboIds_growHeap]
    exact or_iff_left (by omega)
  · rw [hsame]

theorem insert :
    (∃ h', h.insert x = .ok h' ∧ h.Inserted x h' ∧ Sound out h') ∨
      h.insert x = .error .assertion ∧ 2 ^ 31 ≤ h.makeRoom.mMaxSize := by
  by_cases hx : x.Admitted h.makeRoom.mMaxSize
  · obtain ⟨h', hinsert, hi⟩ := hp.valid.insert (forall_mem_cons.mpr
      ⟨hx, fun y hy => hp.admitted_makeRoom hx (hp.valid.admitted y hy)⟩) hp.fresh
    exact .inl ⟨h', hinsert, hi, hp.sound_of_inserted hx hi⟩
  · refine .inr ⟨hp.valid.insert_eq_error (by have := hp.used_lt; omega) hx, ?_⟩
    by_contra hlt
    exact hx (hp.admitted_of_lt (by omega))

end

end Prepared

section Schedule

variable {out : List (TimerNode τ ρ)} {h : TimerHeap τ ρ}

theorem Sound.popFreelist_notMem (hs : Sound out h) (hpos : 0 < h.mMaxSize) :
    h.popFreelist.1 ∉ h.limboIds := by
  intro hmem
  obtain ⟨curr, minFree, -, -, -, -, hfree | ⟨hmax, -⟩⟩ := hs.popFreelist_cases hpos
  · obtain ⟨entry, hentry, -, hne⟩ := mem_freeIds.mp hfree
    exact hne (some.inj (hentry.symm.trans (mem_limboIds.mp hmem)))
  · exact absurd (lt_of_mem_limboIds hmem) (not_lt.mpr hmax.ge)

theorem Sound.scheduleI (hs : Sound out h) (hused : h.mCurSize + h.mCurLimbo < h.mMaxSize)
    (type : τ) (act : ρ) (futureTime interval : TimeValue) :
    (∃ h', h.scheduleI type act futureTime interval = .ok (some h.popFreelist.1, h') ∧
        h'.mHeap.Perm (⟨type, act, futureTime, interval, h.popFreelist.1⟩ :: h.mHeap) ∧
        h.mMaxSize ≤ h'.mMaxSize ∧ Sound out h' ∧ (h.Exact → h'.Exact)) ∨
      h.scheduleI type act futureTime interval = .error .assertion ∧
        2 ^ 31 ≤ h.makeRoom.mMaxSize := by
  have hp := hs.popFreelist hused
  have hnotMem := hs.popFreelist_notMem (by omega)
  obtain ⟨curr, minFree, heq, -⟩ := hs.popFreelist_cases (by omega)
  rw [TimerHeap.scheduleI, if_pos hused]
  dsimp only
  generalize h.popFreelist.1 = id at *
  rw [heq] at hp ⊢
  have hroom : (makeRoom
      { h with mTimerIdsCurr := curr, mTimerIdsMinFree := minFree }).mMaxSize =
      h.makeRoom.mMaxSize := by
    rcases h.makeRoom_cases with ⟨hfull, hgrow⟩ | ⟨hfits, hsame⟩
    · rw [hgrow, mMaxSize_growHeap]
      exact (congrArg mMaxSize (if_pos hfull)).trans (mMaxSize_growHeap _)
    · rw [hsame]
      exact (congrArg mMaxSize (if_neg (not_le.mpr hfits))).trans rfl
  rcases hp.insert (x := ⟨type, act, futureTime, interval, id⟩) with
    ⟨h', hinsert, hi, hs'⟩ | ⟨hinsert, hlarge⟩
  · refine .inl ⟨h', bind_eq_ok.mpr ⟨h', hinsert, rfl⟩, hi.perm, hi.mMaxSize_le, hs', fun he => ?_⟩
    refine hp.exact_of_inserted hi he.two_le ?_
    change (h.limboIds.erase id).card = h.mCurLimbo
    rw [erase_eq_of_notMem hnotMem, he.limbo]
  · refine .inr ⟨?_, hroom ▸ hlarge⟩
    rw [hinsert]
    rfl

end Schedule

namespace Freed

variable {h h' : TimerHeap τ ρ} {id i : ℕ}

theorem freeIds_eq (hf : h.Freed id h') : h'.freeIds = Insert.insert id h.freeIds := by
  ext i
  rw [mem_insert, mem_freeIds, mem_freeIds]
  by_cases hi : i = id
  · subst hi
    simp [hf.entry_self]
  · simp [hf.entry_of_ne hi, hi]

theorem card_limboIds (hf : h.Freed id h') (hid : h.mTimerIds[id]? = some (-2)) :
    h'.limboIds.card + 1 = h.limboIds.card := by
  have hlimbo : h'.limboIds = h.limboIds.erase id := by
    ext i
    rw [mem_erase, mem_limboIds, mem_limboIds]
    by_cases hi : i = id
    · subst hi
      simp [hf.entry_self]
    · simp [hf.entry_of_ne hi, hi]
  rw [hlimbo]
  exact card_erase_add_one (mem_limboIds.mpr hid)

theorem hasRoom (hf : h.Freed id h') (hroom : h.HasRoom) : h'.HasRoom := by
  rw [HasRoom, mCurSize] at hroom ⊢
  rw [hf.mMaxSize_eq, hf.mCurLimbo_eq, hf.mHeap_eq]
  omega

end Freed

namespace Sound

variable {out rest : List (TimerNode τ ρ)} {h h' : TimerHeap τ ρ} {x : TimerNode τ ρ}

theorem perm {out' : List (TimerNode τ ρ)} (hs : Sound out h) (hperm : out.Perm out') :
    Sound out' h :=
  { hs with
    entry := fun x hx => hs.entry x (hperm.mem_iff.mpr hx)
    admitted := fun x hx => hs.admitted x (hperm.mem_iff.mpr hx)
    nodup := (hperm.map TimerNode.timerId).nodup_iff.mp hs.nodup
    mCurLimbo_eq := hs.mCurLimbo_eq.trans hperm.length_eq }

section

variable (hs : Sound out h)
include hs

theorem timerId_ne {y : TimerNode τ ρ} (hx : x ∈ out) (hy : y ∈ h.mHeap) :
    y.timerId ≠ x.timerId := by
  intro hid
  obtain ⟨slot, hslot⟩ := hs.valid.entry_of_mem hy
  rw [hid, hs.entry x hx, some.injEq] at hslot
  omega

theorem of_removed (hr : h.Removed x h') : Sound (x :: out) h' := by
  have hx : x ∈ h.mHeap := hr.perm.mem_iff.mp mem_cons_self
  have hlength : h'.mCurSize + 1 = h.mCurSize := hr.perm.length_eq
  refine ⟨hr.valid, fun i slot' hi => ?_, ?_, ?_, ?_, ?_, ?_, ?_, ?_, ?_⟩
  · by_contra hmem
    have hmem : ∀ y ∈ h'.mHeap, y.timerId ≠ i := by simpa using hmem
    have hne : x.timerId ≠ i := by
      rintro rfl
      rw [hr.entry, some.injEq] at hi
      omega
    have hothers : ∀ y ∈ h.mHeap, y.timerId ≠ i := fun y hy =>
      (mem_cons.mp (hr.perm.mem_iff.mpr hy)).elim (fun h => h ▸ hne) (hmem y)
    rw [hr.others i hothers] at hi
    obtain ⟨y, hy, hyi⟩ := hs.owned i slot' hi
    exact hothers y hy hyi
  · refine forall_mem_cons.mpr ⟨hr.entry, fun y hy => ?_⟩
    exact (hr.entry_iff hs.valid (by decide)).mpr (.inr (hs.entry y hy))
  · rw [hr.mMaxSize_eq]
    exact forall_mem_cons.mpr ⟨hs.valid.admitted x hx, hs.admitted⟩
  · refine nodup_cons.mpr ⟨fun hmem => ?_, hs.nodup⟩
    obtain ⟨y, hy, hyx⟩ := mem_map.mp hmem
    exact hs.timerId_ne hy hx hyx.symm
  · rw [hr.mCurLimbo_eq, hs.mCurLimbo_eq, length_cons]
  · rw [hr.freeIds_eq hs.valid, hr.mMaxSize_eq, hr.mTimerIdsCurr_eq, hr.mTimerIdsMinFree_eq]
    exact hs.tracked
  · rw [hr.mMaxSize_eq, hr.mTimerIdsCurr_eq]
    exact hs.curr_lt
  · rw [hr.freeIds_eq hs.valid, hr.mTimerIdsCurr_eq, hr.mTimerIdsMinFree_eq,
      hr.card_limboIds hs.valid, hr.mCurLimbo_eq]
    have hfew := hs.few
    omega
  · have hroom := hs.room
    rw [HasRoom] at hroom ⊢
    rw [hr.mMaxSize_eq, hr.mCurLimbo_eq]
    omega

theorem exact_of_removed (hr : h.Removed x h') (he : h.Exact) : h'.Exact := by
  have hlength : h'.mCurSize + 1 = h.mCurSize := hr.perm.length_eq
  have hroom := he.room
  refine ⟨hr.mMaxSize_eq ▸ he.two_le, ?_, ?_⟩
  · rw [HasRoom] at hroom ⊢
    rw [hr.mMaxSize_eq, hr.mCurLimbo_eq]
    omega
  · rw [hr.card_limboIds hs.valid, hr.mCurLimbo_eq, he.limbo]

theorem mCurLimbo_le : h.mCurLimbo ≤ h.limboIds.card := by
  rw [hs.mCurLimbo_eq, ← length_map (f := TimerNode.timerId),
    ← toFinset_card_of_nodup hs.nodup]
  refine card_le_card fun i hi => ?_
  obtain ⟨y, hy, rfl⟩ := mem_map.mp (mem_toFinset.mp hi)
  exact mem_limboIds.mpr (hs.entry y hy)

end

theorem prepared (hs : Sound (x :: rest) h) :
    Prepared rest { h with mCurLimbo := h.mCurLimbo - 1 } x.timerId := by
  obtain ⟨hentry, hentries⟩ := forall_mem_cons.mp hs.entry
  obtain ⟨-, hadmitted⟩ := forall_mem_cons.mp hs.admitted
  obtain ⟨hnotMem, hnodup⟩ := nodup_cons.mp hs.nodup
  have hlimbo : h.mCurLimbo = rest.length + 1 := hs.mCurLimbo_eq
  have hlt : x.timerId < h.mMaxSize := (List.getElem?_eq_some_iff.mp hentry).1
  have hcurr := hs.curr_lt (by omega)
  have hfree : h.freeIds.erase x.timerId = h.freeIds := erase_eq_of_notMem fun hmem => by
    obtain ⟨entry, hentry', -, hne⟩ := mem_freeIds.mp hmem
    exact hne (some.inj (hentry'.symm.trans hentry))
  have hcard := card_erase_add_one (mem_limboIds.mpr hentry)
  have hcount := hs.valid.mMaxSize_eq hs.owned
  have hfew := hs.few
  refine ⟨⟨hs.valid.ordered, hs.valid.located, hs.valid.fits, hs.valid.admitted⟩, hs.owned,
    fun y hy => hs.timerId_ne mem_cons_self hy, hentries, fun y hy hid => ?_, hadmitted,
    hnodup, ?_, ?_, hcurr.le, fun h => absurd h hcurr.ne, ?_, fun hfull => ?_, .inl hlt, ?_⟩
  · exact hnotMem (mem_map.mpr ⟨y, hy, hid⟩)
  · change h.mCurLimbo - 1 = _
    omega
  · change Tracked (h.freeIds.erase x.timerId) _ _ _
    rw [hfree]
    exact hs.tracked
  · change (lost (h.freeIds.erase x.timerId) _ _).card + (h.limboIds.erase x.timerId).card ≤
      h.mCurLimbo - 1 + 1
    rw [hfree]
    change (lost h.freeIds h.mTimerIdsCurr h.mTimerIdsMinFree).card + _ ≤ _
    omega
  · change (h.freeIds.erase x.timerId).card + (h.limboIds.erase x.timerId).card ≤
      h.mCurLimbo - 1 + 1
    change h.mMaxSize ≤ h.mCurSize + (h.mCurLimbo - 1) + 2 at hfull
    rw [hfree]
    omega
  · change h.mCurSize + (h.mCurLimbo - 1) < h.mMaxSize
    have hle := hs.mCurLimbo_le
    omega

theorem reschedule {y : TimerNode τ ρ} (hs : Sound (x :: rest) h) (hid : y.timerId = x.timerId) :
    ∃ h', h.reschedule y = .ok h' ∧ Inserted { h with mCurLimbo := h.mCurLimbo - 1 } y h' ∧
      Sound rest h' ∧ (h.Exact → h'.Exact) := by
  obtain ⟨hentry, -⟩ := forall_mem_cons.mp hs.entry
  obtain ⟨hx, -⟩ := forall_mem_cons.mp hs.admitted
  have hlimbo : h.mCurLimbo = rest.length + 1 := hs.mCurLimbo_eq
  have hp := hs.prepared
  rw [TimerHeap.reschedule, if_pos (hid ▸ hentry)]
  obtain ⟨h₁, hh₁⟩ : ∃ h₁, h₁ = { h with mCurLimbo := h.mCurLimbo - 1 } := ⟨_, rfl⟩
  have hmax : h₁.mMaxSize = h.mMaxSize := by rw [hh₁]; rfl
  have hused : h₁.mCurSize + h₁.mCurLimbo + 1 = h.mCurSize + h.mCurLimbo := by
    rw [hh₁]
    change h.mCurSize + (h.mCurLimbo - 1) + 1 = _
    omega
  have hcard := card_erase_add_one (mem_limboIds.mpr hentry)
  have hlimbo₁ : (h₁.limboIds.erase y.timerId).card + 1 = h.limboIds.card ∧
      h₁.mCurLimbo + 1 = h.mCurLimbo := by
    rw [hh₁, hid]
    exact ⟨hcard, by change h.mCurLimbo - 1 + 1 = _; omega⟩
  rw [← hh₁] at hp ⊢
  rw [← hid] at hp
  have hy : y.Admitted h₁.makeRoom.mMaxSize := by
    rcases hs.room with hroom | htwo
    · have hsame : h₁.makeRoom = h₁ := if_neg (by rw [HasRoom] at hroom; omega)
      rw [hsame, hmax, TimerNode.Admitted, hid]
      exact hx
    · refine hp.admitted_of_lt ?_
      have hlen := h₁.mMaxSize_growHeap
      rcases h₁.makeRoom_cases with ⟨-, hgrow⟩ | ⟨-, hsame⟩
      · rw [hgrow]
        omega
      · rw [hsame]
        omega
  obtain ⟨h', hinsert, hi⟩ := hp.valid.insert (forall_mem_cons.mpr
    ⟨hy, fun z hz => hp.admitted_makeRoom hy (hp.valid.admitted z hz)⟩) hp.fresh
  refine ⟨h', hinsert, hi, hp.sound_of_inserted hy hi, fun he => ?_⟩
  have hlimbo' := he.limbo
  exact hp.exact_of_inserted hi (hmax ▸ he.two_le) (by omega)

theorem of_freed (hs : Sound (x :: rest) h) (hf : h.Freed x.timerId h') : Sound rest h' := by
  obtain ⟨hentry, hentries⟩ := forall_mem_cons.mp hs.entry
  obtain ⟨-, hadmitted⟩ := forall_mem_cons.mp hs.admitted
  obtain ⟨hnotMem, hnodup⟩ := nodup_cons.mp hs.nodup
  have hlimbo : h.mCurLimbo = rest.length + 1 := hs.mCurLimbo_eq
  obtain ⟨htracked, hlost⟩ := hs.tracked.push hf.lt
  refine ⟨hs.valid.of_freed hf fun y hy => hs.timerId_ne mem_cons_self hy, ?_, ?_, ?_, hnodup,
    ?_, ?_, ?_, ?_, ?_⟩
  · intro i slot hslot
    rw [hf.mHeap_eq]
    refine hs.owned i slot ?_
    rwa [← hf.entry_of_ne]
    rintro rfl
    rw [hf.entry_self, some.injEq] at hslot
    omega
  · intro y hy
    rw [hf.entry_of_ne fun hid => hnotMem (mem_map.mpr ⟨y, hy, hid⟩)]
    exact hentries y hy
  · rw [hf.mMaxSize_eq]
    exact hadmitted
  · rw [hf.mCurLimbo_eq]
    omega
  · rw [hf.freeIds_eq, hf.mMaxSize_eq, hf.mTimerIdsCurr_eq, hf.mTimerIdsMinFree_eq]
    exact htracked
  · rw [hf.mMaxSize_eq, hf.mTimerIdsCurr_eq]
    exact hs.curr_lt
  · have hle := card_le_card hlost
    have hfew := hs.few
    have hcard := hf.card_limboIds hentry
    rw [hf.freeIds_eq, hf.mTimerIdsCurr_eq, hf.mTimerIdsMinFree_eq, hf.mCurLimbo_eq]
    omega
  · rw [hf.mMaxSize_eq]
    exact hs.room.imp_left hf.hasRoom

theorem exact_of_freed (hs : Sound (x :: rest) h) (hf : h.Freed x.timerId h') (he : h.Exact) :
    h'.Exact := by
  have hlimbo : h.mCurLimbo = rest.length + 1 := hs.mCurLimbo_eq
  have hcard := hf.card_limboIds (forall_mem_cons.mp hs.entry).1
  refine ⟨hf.mMaxSize_eq ▸ he.two_le, hf.hasRoom he.room, ?_⟩
  have hcount := he.limbo
  rw [hf.mCurLimbo_eq]
  omega

theorem freeNode (hs : Sound (x :: rest) h) :
    ∃ h', h.freeNode x = .ok h' ∧ h.Freed x.timerId h' :=
  freed_of_limbo (forall_mem_cons.mp hs.entry).1

end Sound

end TimerHeap

end Icm.Timer
