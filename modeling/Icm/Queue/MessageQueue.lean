import Icm.Lib.Condition
import Icm.Lib.LinkedList
import Icm.Lib.Run

/-!
# The message queue

Class `MessageQueue` (`icc/MessageQueue.cpp`), a bounded queue for any number of threads: linked
blocks, a pointer to the first and one to the last, and a counter.
-/

namespace Icm.Queue

open Icm.Lib List

structure MessageQueue (β : Type) where
  mHead : Option β
  mTail : Option β
  mCurCount : BitVec 64
  mLowWaterMark : BitVec 64
  mHighWaterMark : BitVec 64

namespace MessageQueue

variable {β : Type} (q : MessageQueue β)

def isEmptyInternal : Bool := q.mTail.isNone

def isFullInternal : Bool := decide (q.mHighWaterMark ≤ q.mCurCount)

end MessageQueue

/-- The queue with the links of all blocks, the threads that wait for room with the blocks that they
want to add, the threads that wait for blocks, the blocks that were added, and those that were
taken with the threads that took them. -/
structure System (τ β : Type) where
  links : Links β
  queue : MessageQueue β
  notFullCond : Condition (τ × Option β)
  notEmptyCond : Condition τ
  enqueued : List β
  delivered : List (τ × β)

/-- What can happen: a call, a thread that was woken gets the lock, a thread is woken without a
signal or stops to wait, and the links of blocks change that are not in the queue. -/
inductive Event (τ β : Type) where
  | enqueueTail (thread : τ) (newItem : Option β) (pick : ℕ)
  | dequeueHead (thread : τ) (pick : ℕ)
  | producerResumes (i pick : ℕ)
  | consumerResumes (i pick : ℕ)
  | producerWakes (pick : ℕ)
  | consumerWakes (pick : ℕ)
  | producerTimesOut (i : ℕ)
  | consumerTimesOut (i : ℕ)
  | elsewhere (links : Links β)

namespace System

variable {τ β : Type}

def opened (links : Links β) (hwm lwm : BitVec 64) : System τ β where
  links := links
  queue := ⟨none, none, 0#64, lwm, hwm⟩
  notFullCond := .new
  notEmptyCond := .new
  enqueued := []
  delivered := []

variable [DecidableEq β] (s : System τ β)

def enqueueTailInternal (newItem : Option β) (pick : ℕ) : System τ β × ℤ :=
  match newItem with
  | none => (s, -1)
  | some item =>
    let mCurCount := s.queue.mCurCount + 1#64
    let (links, queue) :=
      match s.queue.mTail with
      | none => (s.links, { s.queue with mHead := some item, mTail := some item, mCurCount })
      | some tail =>
        ((s.links.setNext tail (some item)).setPrev item (some tail),
          { s.queue with mTail := some item, mCurCount })
    ({ s with
      links, queue
      notEmptyCond := s.notEmptyCond.signal pick
      enqueued := s.enqueued ++ [item] }, (mCurCount.setWidth 32).toInt)

def dequeueHeadInternal (thread : τ) (pick : ℕ) : System τ β × ℤ :=
  match s.queue.mHead with
  | none => (s, -1)
  | some firstItem =>
    let mHead := s.links.next firstItem
    let (links, mTail) :=
      match mHead with
      | none => (s.links, none)
      | some head => (s.links.setPrev head none, s.queue.mTail)
    let mCurCount := s.queue.mCurCount - 1#64
    let isLast := mCurCount = 0#64 ∧ mHead = mTail
    let links := (links.setPrev firstItem none).setNext firstItem none
    ({ s with
      links
      queue := { s.queue with
        mHead := if isLast then none else mHead
        mTail := if isLast then none else mTail
        mCurCount }
      notFullCond :=
        if mCurCount ≤ s.queue.mLowWaterMark then s.notFullCond.signal pick else s.notFullCond
      delivered := s.delivered ++ [(thread, firstItem)] }, (mCurCount.setWidth 32).toInt)

def enqueueTail (thread : τ) (newItem : Option β) (pick : ℕ) : System τ β × Option ℤ :=
  if s.queue.isFullInternal then
    ({ s with notFullCond := s.notFullCond.wait (thread, newItem) }, none)
  else
    let (s, queueCount) := s.enqueueTailInternal newItem pick
    (s, some queueCount)

def dequeueHead (thread : τ) (pick : ℕ) : System τ β × Option ℤ :=
  if s.queue.isEmptyInternal then
    ({ s with notEmptyCond := s.notEmptyCond.wait thread }, none)
  else
    let (s, queueCount) := s.dequeueHeadInternal thread pick
    (s, some queueCount)

def step : Event τ β → Except Unit (System τ β)
  | .enqueueTail thread newItem pick => .ok (s.enqueueTail thread newItem pick).1
  | .dequeueHead thread pick => .ok (s.dequeueHead thread pick).1
  | .producerResumes i pick =>
    match s.notFullCond.resume i with
    | none => .error ()
    | some ((thread, newItem), notFullCond) =>
      .ok ({ s with notFullCond }.enqueueTail thread newItem pick).1
  | .consumerResumes i pick =>
    match s.notEmptyCond.resume i with
    | none => .error ()
    | some (thread, notEmptyCond) => .ok ({ s with notEmptyCond }.dequeueHead thread pick).1
  | .producerWakes pick => .ok { s with notFullCond := s.notFullCond.signal pick }
  | .consumerWakes pick => .ok { s with notEmptyCond := s.notEmptyCond.signal pick }
  | .producerTimesOut i => .ok { s with notFullCond := s.notFullCond.leave i }
  | .consumerTimesOut i => .ok { s with notEmptyCond := s.notEmptyCond.leave i }
  | .elsewhere links => .ok { s with links }

def LinksFreely (newItem : Option β) : Prop :=
  s.queue.isFullInternal = false → ∀ item, newItem = some item →
    s.links.next item = none ∧ s.links.prev item = none ∧ s.queue.mHead ≠ some item

def Admissible : Event τ β → Prop
  | .enqueueTail _ newItem _ => s.LinksFreely newItem
  | .producerResumes i _ => ∀ thread newItem cond,
    s.notFullCond.resume i = some ((thread, newItem), cond) → s.LinksFreely newItem
  | .elsewhere links => ∀ xs, s.links.IsList s.queue.mHead s.queue.mTail xs →
    ∀ b ∈ xs, links.prev b = s.links.prev b ∧ links.next b = s.links.next b
  | _ => True

structure Represents (xs : List β) : Prop where
  isList : s.links.IsList s.queue.mHead s.queue.mTail xs
  count : s.queue.mCurCount.toNat = xs.length
  bound : xs.length ≤ s.queue.mHighWaterMark.toNat
  log : s.enqueued = s.delivered.map Prod.snd ++ xs

variable {s} {xs : List β}

omit [DecidableEq β] in
theorem represents_opened (links : Links β) (hwm lwm : BitVec 64) :
    (opened links hwm lwm : System τ β).Represents [] :=
  ⟨links.isList_nil, rfl, Nat.zero_le _, rfl⟩

omit [DecidableEq β] in
theorem Represents.isEmptyInternal_iff (h : s.Represents xs) :
    s.queue.isEmptyInternal = true ↔ xs = [] := by
  rw [MessageQueue.isEmptyInternal, Option.isNone_iff_eq_none, h.isList.tail_eq_none_iff]

omit [DecidableEq β] in
theorem Represents.isFullInternal_iff (h : s.Represents xs) :
    s.queue.isFullInternal = true ↔ s.queue.mHighWaterMark.toNat ≤ xs.length := by
  rw [MessageQueue.isFullInternal, decide_eq_true_eq, BitVec.le_def, h.count]

variable {s' : System τ β}

omit [DecidableEq β] in
theorem Represents.congr (h : s.Represents xs) (hlinks : s'.links = s.links)
    (hqueue : s'.queue = s.queue) (hadded : s'.enqueued = s.enqueued)
    (htaken : s'.delivered = s.delivered) : s'.Represents xs := by
  refine ⟨?_, ?_, ?_, ?_⟩
  · rw [hlinks, hqueue]
    exact h.isList
  · rw [hqueue]
    exact h.count
  · rw [hqueue]
    exact h.bound
  · rw [hadded, htaken]
    exact h.log

theorem Represents.enqueueTailInternal (h : s.Represents xs)
    (hfull : s.queue.isFullInternal = false) {item : β} (hitem : s.LinksFreely (some item))
    (pick : ℕ) : (s.enqueueTailInternal (some item) pick).1.Represents (xs ++ [item]) := by
  obtain ⟨hnext, hprev, hhead⟩ := hitem hfull item rfl
  have hroom : xs.length < s.queue.mHighWaterMark.toNat :=
    not_le.mp fun hle => Bool.false_ne_true (hfull.symm.trans (h.isFullInternal_iff.mpr hle))
  have hlt := s.queue.mHighWaterMark.isLt
  have hcount : (s.queue.mCurCount + 1#64).toNat = (xs ++ [item]).length := by
    rw [BitVec.toNat_add, h.count, length_append]
    exact Nat.mod_eq_of_lt (by simp; omega)
  have hbound : (xs ++ [item]).length ≤ s.queue.mHighWaterMark.toNat := by
    rw [length_append]
    exact hroom
  have hlog : s.enqueued ++ [item] = s.delivered.map Prod.snd ++ (xs ++ [item]) := by
    rw [h.log, append_assoc]
  rw [System.enqueueTailInternal]
  cases htail : s.queue.mTail with
  | none =>
    obtain rfl := h.isList.tail_eq_none_iff.mp htail
    exact ⟨Links.isList_singleton hnext hprev, hcount, hbound, hlog⟩
  | some tail =>
    have hlist := h.isList
    rw [htail] at hlist
    exact ⟨hlist.append (hlist.not_mem hprev hhead) hnext, hcount, hbound, hlog⟩

theorem Represents.dequeueHeadInternal {item : β} (h : s.Represents (item :: xs)) (thread : τ)
    (pick : ℕ) :
    (s.dequeueHeadInternal thread pick).1.Represents xs ∧
      (s.dequeueHeadInternal thread pick).1.notEmptyCond = s.notEmptyCond ∧
      (s.dequeueHeadInternal thread pick).1.notFullCond =
        if xs.length ≤ s.queue.mLowWaterMark.toNat then s.notFullCond.signal pick
        else s.notFullCond := by
  have hcount : (s.queue.mCurCount - 1#64).toNat = xs.length := by
    have := h.count
    rw [length_cons] at this
    bv_omega
  have hbound : xs.length ≤ s.queue.mHighWaterMark.toNat :=
    (Nat.le_succ _).trans h.bound
  have hlog : s.enqueued = (s.delivered ++ [(thread, item)]).map Prod.snd ++ xs := by
    rw [h.log, map_append, append_assoc]
    rfl
  have hlow : (s.queue.mCurCount - 1#64 ≤ s.queue.mLowWaterMark) =
      (xs.length ≤ s.queue.mLowWaterMark.toNat) := by
    rw [BitVec.le_def, hcount]
  have hhead : s.queue.mHead = some item := h.isList.head_eq
  have hnext : s.links.next item = xs.head? := h.isList.chained.2.1
  cases xs with
  | nil =>
    rw [head?_nil] at hnext
    simp only [System.dequeueHeadInternal, hhead, hnext, ite_self, hlow, and_true]
    exact ⟨Links.isList_nil _, hcount, hbound, hlog⟩
  | cons next rest =>
    -- the counter is not zero
    have hne : ¬ (s.queue.mCurCount - 1#64 = 0#64 ∧ some next = s.queue.mTail) := by
      rintro ⟨hzero, -⟩
      rw [hzero, length_cons] at hcount
      cases hcount
    rw [head?_cons] at hnext
    simp only [System.dequeueHeadInternal, hhead, hnext, if_neg hne, hlow, and_true]
    exact ⟨h.isList.popFirst, hcount, hbound, hlog⟩

theorem Represents.enqueueTail (h : s.Represents xs) (thread : τ) {newItem : Option β}
    (hitem : s.LinksFreely newItem) (pick : ℕ) :
    s.queue.mHighWaterMark.toNat ≤ xs.length ∧ (s.enqueueTail thread newItem pick).1 =
        { s with notFullCond := s.notFullCond.wait (thread, newItem) } ∨
      newItem = none ∧ (s.enqueueTail thread newItem pick).1 = s ∨
      ∃ item, newItem = some item ∧
        (s.enqueueTail thread newItem pick).1.Represents (xs ++ [item]) ∧
        (s.enqueueTail thread newItem pick).1.notFullCond = s.notFullCond ∧
        (s.enqueueTail thread newItem pick).1.notEmptyCond = s.notEmptyCond.signal pick := by
  rw [System.enqueueTail]
  cases hfull : s.queue.isFullInternal with
  | true => exact .inl ⟨h.isFullInternal_iff.mp hfull, rfl⟩
  | false =>
    cases newItem with
    | none => exact .inr (.inl ⟨rfl, rfl⟩)
    | some item =>
      refine .inr (.inr ⟨item, rfl, h.enqueueTailInternal hfull hitem pick, ?_, ?_⟩)
      · rfl
      · rfl

theorem Represents.dequeueHead (h : s.Represents xs) (thread : τ) (pick : ℕ) :
    xs = [] ∧ (s.dequeueHead thread pick).1 =
        { s with notEmptyCond := s.notEmptyCond.wait thread } ∨
      ∃ item rest, xs = item :: rest ∧ (s.dequeueHead thread pick).1.Represents rest ∧
        (s.dequeueHead thread pick).1.notEmptyCond = s.notEmptyCond ∧
        (s.dequeueHead thread pick).1.notFullCond =
          if rest.length ≤ s.queue.mLowWaterMark.toNat then s.notFullCond.signal pick
          else s.notFullCond := by
  rw [System.dequeueHead]
  cases xs with
  | nil =>
    rw [if_pos (h.isEmptyInternal_iff.mpr rfl)]
    exact .inl ⟨rfl, rfl⟩
  | cons item rest =>
    rw [if_neg fun hempty => cons_ne_nil _ _ (h.isEmptyInternal_iff.mp hempty)]
    exact .inr ⟨item, rest, rfl, h.dequeueHeadInternal thread pick⟩

theorem step_producerResumes {i pick : ℕ}
    (h : s.step (.producerResumes i pick) = .ok s') :
    ∃ thread newItem notFullCond, s.notFullCond.resume i = some ((thread, newItem), notFullCond) ∧
      ({ s with notFullCond }.enqueueTail thread newItem pick).1 = s' := by
  rw [step] at h
  split at h
  · cases h
  · rename_i thread newItem notFullCond hresume
    exact ⟨thread, newItem, notFullCond, hresume, Except.ok.inj h⟩

theorem step_consumerResumes {i pick : ℕ}
    (h : s.step (.consumerResumes i pick) = .ok s') :
    ∃ thread notEmptyCond, s.notEmptyCond.resume i = some (thread, notEmptyCond) ∧
      ({ s with notEmptyCond }.dequeueHead thread pick).1 = s' := by
  rw [step] at h
  split at h
  · cases h
  · rename_i thread notEmptyCond hresume
    exact ⟨thread, notEmptyCond, hresume, Except.ok.inj h⟩

theorem Represents.exists_enqueueTail (h : s.Represents xs) (thread : τ) {newItem : Option β}
    (hitem : s.LinksFreely newItem) (pick : ℕ) :
    ∃ xs', (s.enqueueTail thread newItem pick).1.Represents xs' := by
  rcases h.enqueueTail thread hitem pick with ⟨-, heq⟩ | ⟨-, heq⟩ | ⟨item, -, hnew, -⟩
  · rw [heq]
    exact ⟨xs, h.congr rfl rfl rfl rfl⟩
  · rw [heq]
    exact ⟨xs, h⟩
  · exact ⟨_, hnew⟩

theorem Represents.exists_dequeueHead (h : s.Represents xs) (thread : τ) (pick : ℕ) :
    ∃ xs', (s.dequeueHead thread pick).1.Represents xs' := by
  rcases h.dequeueHead thread pick with ⟨-, heq⟩ | ⟨item, rest, -, hnew, -⟩
  · rw [heq]
    exact ⟨xs, h.congr rfl rfl rfl rfl⟩
  · exact ⟨rest, hnew⟩

theorem Represents.exists_step {e : Event τ β} (h : s.Represents xs)
    (he : s.Admissible e) (hstep : s.step e = .ok s') : ∃ xs', s'.Represents xs' := by
  cases e with
  | enqueueTail thread newItem pick =>
    cases hstep
    exact h.exists_enqueueTail thread he pick
  | dequeueHead thread pick =>
    cases hstep
    exact h.exists_dequeueHead thread pick
  | producerResumes i pick =>
    obtain ⟨thread, newItem, notFullCond, hresume, rfl⟩ := step_producerResumes hstep
    have hsame : ({ s with notFullCond } : System τ β).Represents xs := h.congr rfl rfl rfl rfl
    exact hsame.exists_enqueueTail thread (he thread newItem notFullCond hresume) pick
  | consumerResumes i pick =>
    obtain ⟨thread, notEmptyCond, -, rfl⟩ := step_consumerResumes hstep
    have hsame : ({ s with notEmptyCond } : System τ β).Represents xs := h.congr rfl rfl rfl rfl
    exact hsame.exists_dequeueHead thread pick
  | producerWakes pick | consumerWakes pick | producerTimesOut i | consumerTimesOut i =>
    cases hstep
    exact ⟨xs, h.congr rfl rfl rfl rfl⟩
  | elsewhere links =>
    cases hstep
    exact ⟨xs, h.isList.congr (he xs h.isList), h.count, h.bound, h.log⟩

theorem enqueueTail_mHighWaterMark (s : System τ β) (thread : τ) (newItem : Option β) (pick : ℕ) :
    (s.enqueueTail thread newItem pick).1.queue.mHighWaterMark = s.queue.mHighWaterMark := by
  rw [enqueueTail]
  split_ifs
  · rfl
  · cases newItem with
    | none => rfl
    | some item =>
      dsimp only [enqueueTailInternal]
      split <;> rfl

theorem dequeueHead_mHighWaterMark (s : System τ β) (thread : τ) (pick : ℕ) :
    (s.dequeueHead thread pick).1.queue.mHighWaterMark = s.queue.mHighWaterMark := by
  rw [dequeueHead]
  split_ifs
  · rfl
  · dsimp only [dequeueHeadInternal]
    split <;> rfl

theorem step_mHighWaterMark {e : Event τ β} (hstep : s.step e = .ok s') :
    s'.queue.mHighWaterMark = s.queue.mHighWaterMark := by
  cases e with
  | enqueueTail thread newItem pick =>
    cases hstep
    exact enqueueTail_mHighWaterMark s thread newItem pick
  | dequeueHead thread pick =>
    cases hstep
    exact dequeueHead_mHighWaterMark s thread pick
  | producerResumes i pick =>
    obtain ⟨thread, newItem, notFullCond, -, rfl⟩ := step_producerResumes hstep
    exact enqueueTail_mHighWaterMark _ thread newItem pick
  | consumerResumes i pick =>
    obtain ⟨thread, notEmptyCond, -, rfl⟩ := step_consumerResumes hstep
    exact dequeueHead_mHighWaterMark _ thread pick
  | producerWakes pick | consumerWakes pick | producerTimesOut i | consumerTimesOut i
  | elsewhere links =>
    cases hstep
    rfl

/-- **Order of delivery.** -/
theorem delivered_in_order (links : Links β) (hwm lwm : BitVec 64) (es : List (Event τ β))
    (hes : EachStep step Admissible (opened links hwm lwm) es) {s : System τ β}
    (hrun : runSteps step (opened links hwm lwm) es = .ok s) :
    ∃ xs, s.links.IsList s.queue.mHead s.queue.mTail xs ∧
      s.enqueued = s.delivered.map Prod.snd ++ xs ∧
      s.queue.mCurCount.toNat = xs.length ∧ (1#64 ≤ hwm → s.queue.mCurCount ≤ hwm) := by
  obtain ⟨hmark, xs, hxs⟩ := runSteps_invariant
    (I := fun s : System τ β => s.queue.mHighWaterMark = hwm ∧ ∃ xs, s.Represents xs)
    (fun s e s' hs he hstep => ⟨(step_mHighWaterMark hstep).trans hs.1, by
      obtain ⟨xs, hxs⟩ := hs.2
      exact hxs.exists_step he hstep⟩)
    ⟨rfl, [], represents_opened links hwm lwm⟩ hes hrun
  refine ⟨xs, hxs.isList, hxs.log, hxs.count, fun _ => ?_⟩
  rw [BitVec.le_def, hxs.count, ← hmark]
  exact hxs.bound

def sampleEvents : List (Event ℕ ℕ) :=
  [.enqueueTail 1 (some 7) 0, .enqueueTail 2 (some 8) 0, .dequeueHead 3 0, .producerResumes 0 0]

def smallSystem : System τ β := opened ⟨fun _ => none, fun _ => none⟩ 1#64 0#64

theorem sampleEvents_admissible : EachStep step Admissible smallSystem sampleEvents := by
  refine ⟨fun _ item h => ?_, fun s₁ h₁ => ?_⟩
  · cases h
    exact ⟨rfl, rfl, nofun⟩
  cases h₁
  refine ⟨nofun, fun s₂ h₂ => ?_⟩
  cases h₂
  refine ⟨trivial, fun s₃ h₃ => ?_⟩
  cases h₃
  refine ⟨fun thread newItem cond h _ item hitem => ?_, fun _ _ => trivial⟩
  cases h
  cases hitem
  exact ⟨rfl, rfl, nofun⟩

theorem delivered_in_order_sample :
    ∃ s, runSteps step smallSystem sampleEvents = .ok s ∧
      ∃ xs, s.links.IsList s.queue.mHead s.queue.mTail xs ∧
        s.enqueued = s.delivered.map Prod.snd ++ xs ∧
        s.queue.mCurCount.toNat = xs.length ∧ (1#64 ≤ 1#64 → s.queue.mCurCount ≤ 1#64) :=
  ⟨_, rfl, delivered_in_order ⟨fun _ => none, fun _ => none⟩ 1#64 0#64 sampleEvents
    sampleEvents_admissible rfl⟩

def Stranded (s : System τ β) : Prop :=
  s.notFullCond.waiting ≠ [] ∧ s.queue.isEmptyInternal = true ∧ s.notFullCond.woken = [] ∨
    s.notEmptyCond.waiting ≠ [] ∧ s.queue.isEmptyInternal = false ∧ s.notEmptyCond.woken = []

end System

namespace Event

variable {τ β : Type}

def Untimed : Event τ β → Prop
  | producerTimesOut _ => False
  | consumerTimesOut _ => False
  | _ => True

def NonNull : Event τ β → Prop
  | enqueueTail _ newItem _ => newItem ≠ none
  | _ => True

end Event

namespace System

variable {τ β : Type} [DecidableEq β] {s : System τ β} {xs : List β}

structure Served (s : System τ β) (xs : List β) : Prop where
  room : 1 ≤ s.queue.mHighWaterMark.toNat
  producers : s.notFullCond.waiting ≠ [] → xs = [] → s.notFullCond.woken ≠ []
  consumers : s.notEmptyCond.waiting ≠ [] → xs.length ≤ s.notEmptyCond.woken.length
  blocks : ∀ w ∈ s.notFullCond.waiting ++ s.notFullCond.woken, w.2 ≠ none

omit [DecidableEq β] in
theorem Served.not_stranded (h : s.Served xs) (hs : s.Represents xs) : ¬ s.Stranded := by
  rintro (⟨hwait, hempty, hwoken⟩ | ⟨hwait, hempty, hwoken⟩)
  · exact h.producers hwait (hs.isEmptyInternal_iff.mp hempty) hwoken
  · have hle := h.consumers hwait
    rw [hwoken, length_nil, Nat.le_zero, length_eq_zero_iff] at hle
    rw [hs.isEmptyInternal_iff.mpr hle] at hempty
    cases hempty

omit [DecidableEq β] in
theorem served_opened {hwm : BitVec 64} (hpos : 1#64 ≤ hwm) (links : Links β) (lwm : BitVec 64) :
    (opened links hwm lwm : System τ β).Served [] :=
  ⟨hpos, fun h => absurd rfl h, fun h => absurd rfl h, forall_mem_nil _⟩

section

variable (hs : s.Represents xs) (hroom : 1 ≤ s.queue.mHighWaterMark.toNat)
include hs hroom

theorem Represents.served_enqueueTail
    (hconsumers : s.notEmptyCond.waiting ≠ [] → xs.length ≤ s.notEmptyCond.woken.length)
    (hblocks : ∀ w ∈ s.notFullCond.waiting ++ s.notFullCond.woken, w.2 ≠ none) (thread : τ)
    {newItem : Option β} (hitem : s.LinksFreely newItem) (hnew : newItem ≠ none) (pick : ℕ) :
    ∃ xs', (s.enqueueTail thread newItem pick).1.Represents xs' ∧
      (s.enqueueTail thread newItem pick).1.Served xs' := by
  rcases hs.enqueueTail thread hitem pick with
    ⟨hfull, heq⟩ | ⟨hnull, -⟩ | ⟨item, -, hafter, hnotFull, hnotEmpty⟩
  · rw [heq]
    refine ⟨xs, hs.congr rfl rfl rfl rfl, hroom, fun _ hnil => ?_, hconsumers, fun w hw => ?_⟩
    · rw [hnil, length_nil] at hfull
      omega
    · simp only [Condition.wait, mem_append, mem_singleton] at hw
      rcases hw with (hw | rfl) | hw
      · exact hblocks w (mem_append_left _ hw)
      · exact hnew
      · exact hblocks w (mem_append_right _ hw)
  · exact absurd hnull hnew
  · refine ⟨_, hafter, by rwa [enqueueTail_mHighWaterMark], fun _ hnil => by simp at hnil, ?_, ?_⟩
    · rw [hnotEmpty]
      rcases s.notEmptyCond.signal_cases pick with ⟨hnil, hsame⟩ | ⟨hwaiting, hwoken⟩
      · rw [hsame]
        exact fun h => absurd hnil h
      · intro _
        have hne : s.notEmptyCond.waiting ≠ [] := ne_nil_of_length_pos (by omega)
        rw [hwoken, length_append]
        exact Nat.succ_le_succ (hconsumers hne)
    · rw [hnotFull]
      exact hblocks

theorem Represents.served_dequeueHead
    (hproducers : s.notFullCond.waiting ≠ [] → xs = [] → s.notFullCond.woken ≠ [])
    (hconsumers : s.notEmptyCond.waiting ≠ [] → xs.length ≤ s.notEmptyCond.woken.length + 1)
    (hblocks : ∀ w ∈ s.notFullCond.waiting ++ s.notFullCond.woken, w.2 ≠ none) (thread : τ)
    (pick : ℕ) :
    ∃ xs', (s.dequeueHead thread pick).1.Represents xs' ∧
      (s.dequeueHead thread pick).1.Served xs' := by
  rcases hs.dequeueHead thread pick with
    ⟨rfl, heq⟩ | ⟨item, rest, rfl, hafter, hnotEmpty, hnotFull⟩
  · rw [heq]
    exact ⟨[], hs.congr rfl rfl rfl rfl, hroom, hproducers, fun _ => Nat.zero_le _, hblocks⟩
  · refine ⟨rest, hafter, by rwa [dequeueHead_mHighWaterMark], ?_, ?_, ?_⟩
    · rintro hwait rfl
      rw [hnotFull, length_nil, if_pos (Nat.zero_le _)] at hwait ⊢
      rcases s.notFullCond.signal_cases pick with ⟨hnil, hsame⟩ | ⟨-, hwoken⟩
      · rw [hsame] at hwait
        exact absurd hnil hwait
      · exact ne_nil_of_length_pos (by omega)
    · rw [hnotEmpty]
      exact fun hwait => Nat.le_of_succ_le_succ (hconsumers hwait)
    · rw [hnotFull]
      split_ifs
      · exact Condition.forall_mem_signal hblocks pick
      · exact hblocks

end

theorem Served.exists_step {s' : System τ β} {e : Event τ β} (h : s.Served xs)
    (hs : s.Represents xs) (he : s.Admissible e) (htime : e.Untimed) (hnull : e.NonNull)
    (hstep : s.step e = .ok s') : ∃ xs', s'.Represents xs' ∧ s'.Served xs' := by
  cases e with
  | enqueueTail thread newItem pick =>
    cases hstep
    exact hs.served_enqueueTail h.room h.consumers h.blocks thread he hnull pick
  | dequeueHead thread pick =>
    cases hstep
    exact hs.served_dequeueHead h.room h.producers
      (fun hwait => (h.consumers hwait).trans (Nat.le_succ _)) h.blocks thread pick
  | producerResumes i pick =>
    obtain ⟨thread, newItem, notFullCond, hresume, rfl⟩ := step_producerResumes hstep
    obtain ⟨hmem, hwaiting, -, hwoken⟩ := Condition.mem_woken_of_resume hresume
    have hsame : ({ s with notFullCond } : System τ β).Represents xs := hs.congr rfl rfl rfl rfl
    refine hsame.served_enqueueTail h.room h.consumers (fun w hw => ?_) thread
      (he thread newItem notFullCond hresume) (h.blocks _ (mem_append_right _ hmem)) pick
    dsimp only at hw
    rw [hwaiting] at hw
    rcases mem_append.mp hw with hw | hw
    · exact h.blocks w (mem_append_left _ hw)
    · exact h.blocks w (mem_append_right _ (hwoken hw))
  | consumerResumes i pick =>
    obtain ⟨thread, notEmptyCond, hresume, rfl⟩ := step_consumerResumes hstep
    obtain ⟨-, hwaiting, hwoken, -⟩ := Condition.mem_woken_of_resume hresume
    have hsame : ({ s with notEmptyCond } : System τ β).Represents xs := hs.congr rfl rfl rfl rfl
    refine hsame.served_dequeueHead h.room h.producers (fun hwait => ?_) h.blocks thread pick
    dsimp only at hwait ⊢
    rw [hwaiting] at hwait
    rw [← hwoken]
    exact h.consumers hwait
  | producerWakes pick =>
    cases hstep
    refine ⟨xs, hs.congr rfl rfl rfl rfl, h.room, fun hwait _ => ?_, h.consumers,
      Condition.forall_mem_signal h.blocks pick⟩
    rcases s.notFullCond.signal_cases pick with ⟨hnil, hsame⟩ | ⟨-, hwoken⟩
    · dsimp only at hwait
      rw [hsame] at hwait
      exact absurd hnil hwait
    · exact ne_nil_of_length_pos (by dsimp only; omega)
  | consumerWakes pick =>
    cases hstep
    refine ⟨xs, hs.congr rfl rfl rfl rfl, h.room, h.producers, fun hwait => ?_, h.blocks⟩
    rcases s.notEmptyCond.signal_cases pick with ⟨hnil, hsame⟩ | ⟨hwaiting, hwoken⟩
    · dsimp only at hwait
      rw [hsame] at hwait
      exact absurd hnil hwait
    · have := h.consumers (ne_nil_of_length_pos (by omega))
      dsimp only
      omega
  | producerTimesOut i | consumerTimesOut i => exact htime.elim
  | elsewhere links =>
    cases hstep
    exact ⟨xs, ⟨hs.isList.congr (he xs hs.isList), hs.count, hs.bound, hs.log⟩, h.room,
      h.producers, h.consumers, h.blocks⟩

def NoneStranded (τ β : Type) [DecidableEq β] (nulls : Bool) : Prop :=
  ∀ (links : Links β) (hwm lwm : BitVec 64), 1#64 ≤ hwm →
    ∀ (es : List (Event τ β)) (s : System τ β),
      EachStep step (fun s e => s.Admissible e ∧ e.Untimed ∧ (nulls = false → e.NonNull))
        (opened links hwm lwm) es →
      runSteps step (opened links hwm lwm) es = .ok s → ¬ s.Stranded

theorem noneStranded_of_nonNull : NoneStranded τ β false := by
  intro links hwm lwm hpos es s hes hrun
  obtain ⟨xs, hxs, hserved⟩ := runSteps_invariant
    (I := fun s : System τ β => ∃ xs, s.Represents xs ∧ s.Served xs)
    (fun s e s' hs he hstep => by
      obtain ⟨xs, hxs, hserved⟩ := hs
      exact hserved.exists_step hxs he.1 he.2.1 (he.2.2 rfl) hstep)
    ⟨[], represents_opened links hwm lwm, served_opened hpos links lwm⟩ hes hrun
  exact hserved.not_stranded hxs

variable (thread : τ) (item : β)

def nullEvents : List (Event τ β) :=
  [.enqueueTail thread (some item) 0, .enqueueTail thread none 0, .enqueueTail thread (some item) 0,
    .dequeueHead thread 0, .producerResumes 0 0]

def nullSystem : System τ β :=
  (((((smallSystem.enqueueTail thread (some item) 0).1.enqueueTail thread none 0).1).enqueueTail
    thread (some item) 0).1.dequeueHead thread 0).1

theorem nullSystem_spec :
    (nullSystem thread item).Represents [] ∧
      (nullSystem thread item).notFullCond = ⟨[(thread, some item)], [(thread, none)]⟩ := by
  have hone : ((((smallSystem.enqueueTail thread (some item) 0).1.enqueueTail thread none 0).1
      ).enqueueTail thread (some item) 0).1.Represents [item] :=
    ⟨Links.isList_singleton rfl rfl, rfl, le_rfl, rfl⟩
  rcases hone.dequeueHead thread 0 with ⟨hnil, -⟩ | ⟨b, rest, heq, hafter, -, hnotFull⟩
  · cases hnil
  · obtain ⟨rfl, rfl⟩ := cons.inj heq
    rw [length_nil, if_pos (Nat.zero_le _)] at hnotFull
    exact ⟨hafter, hnotFull⟩

theorem nullEvents_admissible :
    EachStep step (fun s e => s.Admissible e ∧ e.Untimed ∧ (true = false → e.NonNull)) smallSystem
      (nullEvents thread item) := by
  refine ⟨⟨fun _ item h => ?_, trivial, nofun⟩, fun s₁ h₁ => ?_⟩
  · cases h
    exact ⟨rfl, rfl, nofun⟩
  cases h₁
  refine ⟨⟨nofun, trivial, nofun⟩, fun s₂ h₂ => ?_⟩
  cases h₂
  refine ⟨⟨nofun, trivial, nofun⟩, fun s₃ h₃ => ?_⟩
  cases h₃
  refine ⟨⟨trivial, trivial, nofun⟩, fun s₄ h₄ => ?_⟩
  cases h₄
  refine ⟨⟨fun thread' newItem cond h _ item' hitem => ?_, trivial, nofun⟩, fun _ _ => trivial⟩
  have h : (nullSystem thread item).notFullCond.resume 0 = some ((thread', newItem), cond) := h
  rw [(nullSystem_spec thread item).2, hitem] at h
  cases h

theorem nullEvents_stranded :
    ∃ s, runSteps step smallSystem (nullEvents thread item) = .ok s ∧
      s.notFullCond = ⟨[(thread, some item)], []⟩ ∧ s.queue.isEmptyInternal = true := by
  obtain ⟨hlist, hnotFull⟩ := nullSystem_spec thread item
  have hlast : (nullSystem thread item).step (.producerResumes 0 0) =
      .ok ({ nullSystem thread item with notFullCond := ⟨[(thread, some item)], []⟩ }.enqueueTail
        thread none 0).1 := by
    rw [step, hnotFull]
    rfl
  have hsame : ({ nullSystem thread item with notFullCond := ⟨[(thread, some item)], []⟩ } :
      System τ β).Represents [] := hlist.congr rfl rfl rfl rfl
  have hmark : (nullSystem thread item).queue.mHighWaterMark = 1#64 := rfl
  have hafter : ({ nullSystem thread item with notFullCond := ⟨[(thread, some item)], []⟩ }
      |>.enqueueTail thread none 0).1 =
      { nullSystem thread item with notFullCond := ⟨[(thread, some item)], []⟩ } := by
    rcases hsame.enqueueTail thread (show LinksFreely _ none from nofun) 0 with
      ⟨hfull, -⟩ | ⟨-, heq⟩ | ⟨b, hb, -⟩
    · dsimp only at hfull
      rw [hmark] at hfull
      cases hfull
    · exact heq
    · cases hb
  rw [hafter] at hlast
  refine ⟨_, ?_, rfl, hsame.isEmptyInternal_iff.mpr rfl⟩
  exact (show runSteps step smallSystem (nullEvents thread item) =
    runSteps step (nullSystem thread item) [.producerResumes 0 0] from rfl).trans
      (runSteps_cons_eq_ok.mpr ⟨_, hlast, rfl⟩)

/-- **Lost signals.** -/
theorem none_stranded_iff (τ β : Type) [DecidableEq β] [Inhabited τ] [Inhabited β] (nulls : Bool) :
    NoneStranded τ β nulls ↔ nulls = false := by
  constructor
  · intro hnone
    cases nulls with
    | false => rfl
    | true =>
      obtain ⟨s, hrun, hnotFull, hempty⟩ := nullEvents_stranded (default : τ) (default : β)
      refine absurd (.inl ⟨?_, hempty, ?_⟩)
        (hnone _ 1#64 0#64 (by decide) _ s (nullEvents_admissible default default) hrun)
      · rw [hnotFull]
        exact cons_ne_nil _ _
      · rw [hnotFull]
  · rintro rfl
    exact noneStranded_of_nonNull

theorem null_stranded :
    ∃ s, runSteps step (opened ⟨fun _ => none, fun _ => none⟩ 1#64 0#64)
        [.enqueueTail 0 (some 7) 0, .enqueueTail 1 none 0, .enqueueTail 2 (some 8) 0,
          .dequeueHead 3 0, .producerResumes 0 0] = .ok s ∧
      s.notFullCond = ⟨[(2, some 8)], []⟩ ∧ s.notEmptyCond = ⟨[], []⟩ ∧
      s.queue.isEmptyInternal = true ∧ s.delivered = [(3, 7)] :=
  ⟨_, rfl, rfl, rfl, rfl, rfl⟩

end System

end Icm.Queue
