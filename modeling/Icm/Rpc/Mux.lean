import Icm.Lib.Run

/-!
# Many requests on one connection

Class `MuxedTms` of `icm/TransportMuxStrategy.cpp`. A request takes a number from a counter, binds
its reply dispatcher under that number, and the dispatcher gets the reply that carries the number.
-/

namespace Icm.Rpc

open Icm.Lib List Function

abbrev DispatcherPtr := ℕ

structure MuxedTms where
  requestIdGenerator : UInt64
  dispatcherTable : UInt32 → Option DispatcherPtr

namespace MuxedTms

variable (tms : MuxedTms)

def create : MuxedTms := ⟨0, fun _ => none⟩

def requestId : UInt32 × MuxedTms :=
  (tms.requestIdGenerator.toUInt32, { tms with requestIdGenerator := tms.requestIdGenerator + 1 })

def bindDispatcher (requestId : UInt32) (rd : DispatcherPtr) : ℤ × MuxedTms :=
  (1, { tms with
    dispatcherTable :=
      if (tms.dispatcherTable requestId).isSome then tms.dispatcherTable
      else update tms.dispatcherTable requestId (some rd) })

def unbindDispatcher (rd : DispatcherPtr) : ℤ × MuxedTms :=
  (0, { tms with
    dispatcherTable := fun requestId =>
      if tms.dispatcherTable requestId = some rd then none else tms.dispatcherTable requestId })

def dispatchReply (requestId replyStatus : UInt32) : Option (DispatcherPtr × UInt32) × MuxedTms :=
  match tms.dispatcherTable requestId with
  | none => (none, tms)
  | some rd => (some (rd, replyStatus),
      { tms with dispatcherTable := update tms.dispatcherTable requestId none })

end MuxedTms

structure Call where
  number : ℕ
  requestId : UInt32
  rd : DispatcherPtr
  bound : Bool
  deriving DecidableEq

def Call.markBound (number : ℕ) (c : Call) : Call :=
  if c.number = number then { c with bound := true } else c

section markBound

variable (number : ℕ) (c : Call)

@[simp] theorem Call.markBound_number : (c.markBound number).number = c.number := by
  rw [markBound]
  split_ifs <;> rfl

@[simp] theorem Call.markBound_requestId : (c.markBound number).requestId = c.requestId := by
  rw [markBound]
  split_ifs <;> rfl

@[simp] theorem Call.markBound_rd : (c.markBound number).rd = c.rd := by
  rw [markBound]
  split_ifs <;> rfl

theorem Call.markBound_bound : (c.markBound number).bound = true ↔
    c.bound = true ∨ c.number = number := by
  rw [markBound]
  split_ifs with h <;> simp [h]

end markBound

/-- The class, the calls, the count of ids that were taken, and the numbers of the calls whose
dispatchers got a reply. -/
structure Exchange where
  tms : MuxedTms
  calls : List Call
  generated : ℕ
  deliveries : List ℕ

/-- What happens: a call starts and takes an id, it binds its dispatcher, a dispatcher is unbound
when its call ends, and a reply arrives. -/
inductive MuxEvent
  | start (rd : DispatcherPtr)
  | bind (number : ℕ)
  | unbind (rd : DispatcherPtr)
  | reply (requestId replyStatus : UInt32)

namespace Exchange

def create : Exchange := ⟨.create, [], 0, []⟩

def Outstanding (s : Exchange) (requestId : UInt32) (c : Call) : Prop :=
  c ∈ s.calls ∧ c.bound = true ∧ c.requestId = requestId

def reached (s : Exchange) : Option (DispatcherPtr × UInt32) → List ℕ
  | none => []
  | some (rd, _) => (s.calls.filter fun c => c.rd = rd).map Call.number

def step (s : Exchange) : MuxEvent → Exchange
  | .start rd =>
    { s with
      tms := s.tms.requestId.2
      calls := s.calls ++ [⟨s.generated, s.tms.requestId.1, rd, false⟩]
      generated := s.generated + 1 }
  | .bind number =>
    match s.calls.find? fun c => c.number = number ∧ c.bound = false with
    | none => s
    | some c =>
      { s with
        tms := (s.tms.bindDispatcher c.requestId c.rd).2
        calls := s.calls.map (Call.markBound number) }
  | .unbind rd =>
    { s with
      tms := (s.tms.unbindDispatcher rd).2
      calls := s.calls.filter fun c => c.rd ≠ rd }
  | .reply requestId replyStatus =>
    { s with
      tms := (s.tms.dispatchReply requestId replyStatus).2
      calls := s.calls.filter fun c => ¬ (c.bound = true ∧ c.requestId = requestId)
      deliveries := s.deliveries ++ s.reached (s.tms.dispatchReply requestId replyStatus).1 }

/-- The condition on an event: a new call has a dispatcher of its own, and with its id fewer than
`2^32` have been taken since each call that has not ended took its own. -/
def Proper (s : Exchange) : MuxEvent → Prop
  | .start rd => ∀ c ∈ s.calls, c.rd ≠ rd ∧ s.generated - c.number < 2 ^ 32
  | _ => True

instance (s : Exchange) : DecidablePred s.Proper
  | .start _ => inferInstanceAs (Decidable (∀ _ ∈ _, _))
  | .bind _ | .unbind _ | .reply _ _ => .isTrue trivial

structure Faithful (s : Exchange) : Prop where
  dispatched : ∀ requestId replyStatus rd,
    (s.tms.dispatchReply requestId replyStatus).1 = some (rd, replyStatus) ↔
      ∃ c, s.Outstanding requestId c ∧ c.rd = rd
  unique : ∀ requestId c c', s.Outstanding requestId c → s.Outstanding requestId c' → c = c'
  once : s.deliveries.Nodup
  ignored : ∀ requestId replyStatus, (∀ c, ¬ s.Outstanding requestId c) →
    (s.tms.dispatchReply requestId replyStatus).1 = none ∧
      s.step (.reply requestId replyStatus) = s
  registered : ∀ c ∈ s.calls, c.bound = false →
    (s.tms.bindDispatcher c.requestId c.rd).1 = 1 →
      (s.tms.bindDispatcher c.requestId c.rd).2.dispatcherTable c.requestId = some c.rd

structure Consistent (s : Exchange) : Prop where
  generator : s.tms.requestIdGenerator = .ofNat s.generated
  window : ∀ c ∈ s.calls, c.number < s.generated ∧ s.generated - c.number ≤ 2 ^ 32
  requestId_eq : ∀ c ∈ s.calls, c.requestId = .ofNat c.number
  numbers : (s.calls.map Call.number).Nodup
  dispatchers : (s.calls.map Call.rd).Nodup
  table : ∀ requestId rd, s.tms.dispatcherTable requestId = some rd ↔
    ∃ c, s.Outstanding requestId c ∧ c.rd = rd
  delivered : ∀ n ∈ s.deliveries, n < s.generated ∧ ∀ c ∈ s.calls, c.number ≠ n
  once : s.deliveries.Nodup

namespace Consistent

variable {s : Exchange}

theorem create : Consistent create where
  generator := rfl
  window := forall_mem_nil _
  requestId_eq := forall_mem_nil _
  numbers := nodup_nil
  dispatchers := nodup_nil
  table := fun _ _ => ⟨nofun, fun ⟨_, h, _⟩ => absurd h.1 not_mem_nil⟩
  delivered := forall_mem_nil _
  once := nodup_nil

section

variable (hs : Consistent s)
include hs

theorem eq_of_requestId {c c' : Call} (hc : c ∈ s.calls) (hc' : c' ∈ s.calls)
    (h : c.requestId = c'.requestId) : c = c' := by
  refine inj_on_of_nodup_map hs.numbers hc hc' ?_
  rw [hs.requestId_eq c hc, hs.requestId_eq c' hc'] at h
  have hmod : c.number % 2 ^ 32 = c'.number % 2 ^ 32 := by
    simpa using congrArg UInt32.toNat h
  have := hs.window c hc
  have := hs.window c' hc'
  omega

theorem eq_of_rd {c c' : Call} (hc : c ∈ s.calls) (hc' : c' ∈ s.calls)
    (h : c.rd = c'.rd) : c = c' :=
  inj_on_of_nodup_map hs.dispatchers hc hc' h

theorem table_eq_none {c : Call} (hc : c ∈ s.calls) (hbound : c.bound = false) :
    s.tms.dispatcherTable c.requestId = none := by
  refine Option.eq_none_iff_forall_ne_some.mpr fun rd hrd => ?_
  obtain ⟨c', ⟨hc', hbound', hid⟩, -⟩ := (hs.table _ rd).mp hrd
  obtain rfl := hs.eq_of_requestId hc' hc hid
  rw [hbound] at hbound'
  cases hbound'

theorem bindDispatcher_table {c : Call} (hc : c ∈ s.calls)
    (hbound : c.bound = false) : (s.tms.bindDispatcher c.requestId c.rd).2.dispatcherTable =
      update s.tms.dispatcherTable c.requestId (some c.rd) := by
  simp [MuxedTms.bindDispatcher, hs.table_eq_none hc hbound]

theorem start {rd : DispatcherPtr} (h : s.Proper (.start rd)) :
    Consistent (s.step (.start rd)) where
  generator := by
    change s.tms.requestIdGenerator + 1 = _
    rw [hs.generator]
    exact (UInt64.ofNat_add ..).symm
  window := by
    refine forall_mem_append.mpr ⟨fun c hc => ?_, forall_mem_singleton.mpr ?_⟩
    · have := hs.window c hc
      have := (h c hc).2
      change c.number < s.generated + 1 ∧ s.generated + 1 - c.number ≤ 2 ^ 32
      omega
    · change s.generated < s.generated + 1 ∧ s.generated + 1 - s.generated ≤ 2 ^ 32
      omega
  requestId_eq := by
    refine forall_mem_append.mpr ⟨hs.requestId_eq, forall_mem_singleton.mpr ?_⟩
    change s.tms.requestIdGenerator.toUInt32 = .ofNat s.generated
    rw [hs.generator]
    simp
  numbers := by
    change ((s.calls ++ [_]).map Call.number).Nodup
    rw [map_append]
    refine nodup_append'.mpr ⟨hs.numbers, nodup_singleton _, ?_⟩
    refine disjoint_singleton.mpr fun hmem => ?_
    obtain ⟨c, hc, heq⟩ := mem_map.mp hmem
    exact (hs.window c hc).1.ne heq
  dispatchers := by
    change ((s.calls ++ [_]).map Call.rd).Nodup
    rw [map_append]
    refine nodup_append'.mpr ⟨hs.dispatchers, nodup_singleton _, ?_⟩
    refine disjoint_singleton.mpr fun hmem => ?_
    obtain ⟨c, hc, heq⟩ := mem_map.mp hmem
    exact (h c hc).1 heq
  table := by
    intro requestId rd'
    refine (hs.table requestId rd').trans ⟨?_, ?_⟩
    · rintro ⟨c, ⟨hc, hbound, hid⟩, hrd⟩
      exact ⟨c, ⟨mem_append_left _ hc, hbound, hid⟩, hrd⟩
    · rintro ⟨c, ⟨hc, hbound, hid⟩, hrd⟩
      rcases mem_append.mp hc with hc | hc
      · exact ⟨c, ⟨hc, hbound, hid⟩, hrd⟩
      · rw [mem_singleton.mp hc] at hbound
        cases hbound
  delivered := by
    intro n hn
    obtain ⟨hlt, hne⟩ := hs.delivered n hn
    refine ⟨hlt.trans (Nat.lt_succ_self _), ?_⟩
    exact forall_mem_append.mpr ⟨hne, forall_mem_singleton.mpr hlt.ne'⟩
  once := hs.once

theorem bind (number : ℕ) : Consistent (s.step (.bind number)) := by
  rw [step]
  split
  · exact hs
  next c hfind =>
  have hc := mem_of_find?_eq_some hfind
  obtain ⟨rfl, hbound⟩ : c.number = number ∧ c.bound = false := by
    simpa using find?_some hfind
  have hproj {α : Type} (f : Call → α) (hf : ∀ c' : Call, f (c'.markBound c.number) = f c') :
      (s.calls.map (Call.markBound c.number)).map f = s.calls.map f := by
    rw [map_map]
    exact map_congr_left fun c' _ => hf c'
  refine ⟨hs.generator, forall_mem_map.mpr fun c' hc' => ?_,
    forall_mem_map.mpr fun c' hc' => ?_, ?_, ?_, fun id rd => ?_, fun n hn => ?_, hs.once⟩
  · rw [Call.markBound_number]
    exact hs.window c' hc'
  · rw [Call.markBound_number, Call.markBound_requestId]
    exact hs.requestId_eq c' hc'
  · exact (hproj Call.number (Call.markBound_number _)) ▸ hs.numbers
  · exact (hproj Call.rd (Call.markBound_rd _)) ▸ hs.dispatchers
  · -- the outstanding requests are the old ones and this one, which no old one has the id of
    have hnew : (∃ c', (c' ∈ s.calls.map (Call.markBound c.number) ∧ c'.bound = true ∧
        c'.requestId = id) ∧ c'.rd = rd) ↔
        s.tms.dispatcherTable id = some rd ∨ c.requestId = id ∧ c.rd = rd := by
      rw [hs.table]
      constructor
      · rintro ⟨_, ⟨hmem, hbound', hid⟩, hrd⟩
        obtain ⟨c₀, hc₀, rfl⟩ := mem_map.mp hmem
        rw [Call.markBound_requestId] at hid
        rw [Call.markBound_rd] at hrd
        rcases (Call.markBound_bound ..).mp hbound' with hold | hnumber
        · exact Or.inl ⟨c₀, ⟨hc₀, hold, hid⟩, hrd⟩
        · obtain rfl := inj_on_of_nodup_map hs.numbers hc₀ hc hnumber
          exact Or.inr ⟨hid, hrd⟩
      · rintro (⟨c₀, ⟨hc₀, hold, hid⟩, hrd⟩ | ⟨hid, hrd⟩)
        · exact ⟨_, ⟨mem_map_of_mem hc₀, (Call.markBound_bound ..).mpr (Or.inl hold),
            by rwa [Call.markBound_requestId]⟩, by rwa [Call.markBound_rd]⟩
        · exact ⟨_, ⟨mem_map_of_mem hc, (Call.markBound_bound ..).mpr (Or.inr rfl),
            by rwa [Call.markBound_requestId]⟩, by rwa [Call.markBound_rd]⟩
    refine Iff.trans ?_ hnew.symm
    change (s.tms.bindDispatcher c.requestId c.rd).2.dispatcherTable id = some rd ↔ _
    rw [hs.bindDispatcher_table hc hbound]
    by_cases hid : id = c.requestId
    · subst hid
      rw [update_self, hs.table_eq_none hc hbound]
      simp
    · rw [update_of_ne hid]
      simp [Ne.symm hid]
  · obtain ⟨hlt, hne⟩ := hs.delivered n hn
    refine ⟨hlt, forall_mem_map.mpr fun c' hc' => ?_⟩
    rw [Call.markBound_number]
    exact hne c' hc'

end

theorem calls_sublist {calls : List Call} {tms : MuxedTms} {deliveries : List ℕ}
    (hs : Consistent s) (hsub : calls.Sublist s.calls)
    (hgenerator : tms.requestIdGenerator = s.tms.requestIdGenerator)
    (htable : ∀ requestId rd, tms.dispatcherTable requestId = some rd ↔
      ∃ c, (c ∈ calls ∧ c.bound = true ∧ c.requestId = requestId) ∧ c.rd = rd)
    (hdelivered : ∀ n ∈ deliveries, n < s.generated ∧ ∀ c ∈ calls, c.number ≠ n)
    (honce : deliveries.Nodup) :
    Consistent ⟨tms, calls, s.generated, deliveries⟩ where
  generator := hgenerator.trans hs.generator
  window := fun c hc => hs.window c (hsub.subset hc)
  requestId_eq := fun c hc => hs.requestId_eq c (hsub.subset hc)
  numbers := hs.numbers.sublist (hsub.map _)
  dispatchers := hs.dispatchers.sublist (hsub.map _)
  table := htable
  delivered := hdelivered
  once := honce

theorem unbind (hs : Consistent s) (rd : DispatcherPtr) : Consistent (s.step (.unbind rd)) := by
  refine hs.calls_sublist filter_sublist rfl (fun id rd' => ?_) (fun n hn => ?_) hs.once
  · have hkept : (s.tms.unbindDispatcher rd).2.dispatcherTable id = some rd' ↔
        s.tms.dispatcherTable id = some rd' ∧ rd' ≠ rd := by
      change (if s.tms.dispatcherTable id = some rd then none else s.tms.dispatcherTable id) = _ ↔ _
      split_ifs with heq
      · rw [heq]
        exact ⟨nofun, fun h => absurd (Option.some.inj h.1).symm h.2⟩
      · exact ⟨fun h => ⟨h, fun hrd => heq (hrd ▸ h)⟩, And.left⟩
    rw [hkept, hs.table]
    constructor
    · rintro ⟨⟨c, ⟨hc, hbound, hid⟩, hrd⟩, hne⟩
      exact ⟨c, ⟨mem_filter.mpr ⟨hc, decide_eq_true (hrd ▸ hne)⟩, hbound, hid⟩, hrd⟩
    · rintro ⟨c, ⟨hc, hbound, hid⟩, hrd⟩
      obtain ⟨hc, hne⟩ := mem_filter.mp hc
      exact ⟨⟨c, ⟨hc, hbound, hid⟩, hrd⟩, hrd ▸ of_decide_eq_true hne⟩
  · obtain ⟨hlt, hne⟩ := hs.delivered n hn
    exact ⟨hlt, fun c hc => hne c (mem_of_mem_filter hc)⟩

theorem dispatchReply_table (tms : MuxedTms) (requestId replyStatus : UInt32) :
    (tms.dispatchReply requestId replyStatus).2 =
      { tms with dispatcherTable := update tms.dispatcherTable requestId none } := by
  rw [MuxedTms.dispatchReply]
  split
  · next hnone => rw [← hnone, update_eq_self]
  · rfl

theorem mem_reached (hs : Consistent s) {requestId replyStatus : UInt32} {n : ℕ}
    (hn : n ∈ s.reached (s.tms.dispatchReply requestId replyStatus).1) :
    ∃ c, s.Outstanding requestId c ∧ c.number = n := by
  rw [MuxedTms.dispatchReply] at hn
  split at hn
  · exact absurd hn not_mem_nil
  · next rd hrd =>
    obtain ⟨c, hc, rfl⟩ := mem_map.mp hn
    obtain ⟨hc, heq⟩ := mem_filter.mp hc
    obtain ⟨c', hc', hrd'⟩ := (hs.table requestId rd).mp hrd
    obtain rfl := hs.eq_of_rd hc hc'.1 ((of_decide_eq_true heq).trans hrd'.symm)
    exact ⟨c, hc', rfl⟩

theorem reply (hs : Consistent s) (requestId replyStatus : UInt32) :
    Consistent (s.step (.reply requestId replyStatus)) := by
  have hfilter {c : Call} : c ∈ s.calls.filter
      (fun c => ¬ (c.bound = true ∧ c.requestId = requestId)) ↔
      c ∈ s.calls ∧ ¬ (c.bound = true ∧ c.requestId = requestId) := by
    rw [mem_filter, decide_eq_true_iff]
  refine hs.calls_sublist filter_sublist ?_ (fun id rd => ?_) (fun n hn => ?_) ?_
  · rw [dispatchReply_table]
  · rw [dispatchReply_table]
    change update s.tms.dispatcherTable requestId none id = some rd ↔ _
    by_cases hid : id = requestId
    · subst hid
      rw [update_self]
      refine ⟨nofun, ?_⟩
      rintro ⟨c, ⟨hc, hbound, hid⟩, -⟩
      exact absurd ⟨hbound, hid⟩ (hfilter.mp hc).2
    · rw [update_of_ne hid, hs.table]
      constructor
      · rintro ⟨c, ⟨hc, hbound, heq⟩, hrd⟩
        exact ⟨c, ⟨hfilter.mpr ⟨hc, fun h => hid (heq.symm.trans h.2)⟩, hbound, heq⟩, hrd⟩
      · rintro ⟨c, ⟨hc, hbound, heq⟩, hrd⟩
        exact ⟨c, ⟨(hfilter.mp hc).1, hbound, heq⟩, hrd⟩
  · rcases mem_append.mp hn with hn | hn
    · obtain ⟨hlt, hne⟩ := hs.delivered n hn
      exact ⟨hlt, fun c hc => hne c (hfilter.mp hc).1⟩
    · obtain ⟨c, ⟨hc, hbound, hid⟩, rfl⟩ := hs.mem_reached hn
      refine ⟨(hs.window c hc).1, fun c' hc' heq => ?_⟩
      obtain rfl := inj_on_of_nodup_map hs.numbers (hfilter.mp hc').1 hc heq
      exact (hfilter.mp hc').2 ⟨hbound, hid⟩
  · refine nodup_append'.mpr ⟨hs.once, ?_, fun n hold hnew => ?_⟩
    · cases (s.tms.dispatchReply requestId replyStatus).1 with
      | none => exact nodup_nil
      | some r => exact hs.numbers.sublist (filter_sublist.map _)
    · obtain ⟨c, hc, rfl⟩ := hs.mem_reached hnew
      exact (hs.delivered _ hold).2 c hc.1 rfl

theorem step {e : MuxEvent} (hs : Consistent s) (he : s.Proper e) : Consistent (s.step e) := by
  cases e with
  | start rd => exact hs.start he
  | bind number => exact hs.bind number
  | unbind rd => exact hs.unbind rd
  | reply requestId replyStatus => exact hs.reply requestId replyStatus

theorem faithful (hs : Consistent s) : Faithful s where
  dispatched := by
    intro requestId replyStatus rd
    rw [← hs.table, MuxedTms.dispatchReply]
    split
    · next hnone => simp [hnone]
    · next rd' hrd => simp [hrd]
  unique := fun _ _ _ hc hc' => hs.eq_of_requestId hc.1 hc'.1 (hc.2.2.trans hc'.2.2.symm)
  once := hs.once
  ignored := by
    intro requestId replyStatus hnone
    have htable : s.tms.dispatcherTable requestId = none := by
      refine Option.eq_none_iff_forall_ne_some.mpr fun rd hrd => ?_
      obtain ⟨c, hc, -⟩ := (hs.table requestId rd).mp hrd
      exact hnone c hc
    have hdispatch : s.tms.dispatchReply requestId replyStatus = (none, s.tms) := by
      rw [MuxedTms.dispatchReply, htable]
    refine ⟨by rw [hdispatch], ?_⟩
    have hcalls : s.calls.filter (fun c => ¬ (c.bound = true ∧ c.requestId = requestId)) =
        s.calls :=
      filter_eq_self.mpr fun c hc => decide_eq_true fun h => hnone c ⟨hc, h⟩
    rw [Exchange.step, hdispatch, hcalls]
    simp [reached]
  registered := by
    intro c hc hbound _
    rw [hs.bindDispatcher_table hc hbound, update_self]

end Consistent

/-- **Replies are matched.** -/
theorem replies_matched (es : List MuxEvent) (h : EachStep (total step) Proper create es) :
    Faithful (es.foldl step create) :=
  (foldl_invariant (fun _ _ hs he => Consistent.step hs he) Consistent.create h).faithful

theorem replies_matched_late :
    Faithful ([.start 100, .start 200, .bind 1, .bind 0, .reply 1 0, .unbind 100, .reply 0 0,
      .start 100].foldl step create) :=
  replies_matched _ (by decide +kernel)

end Exchange

end Icm.Rpc
