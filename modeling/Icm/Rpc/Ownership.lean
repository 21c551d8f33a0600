import Icm.Rpc.Mux

/-!
# Who deletes a reply dispatcher

Class `TwowayInvocation` of `icm/Invocation.cpp` and the end of a `MuxedTms`
(`icm/TransportMuxStrategy.cpp`).
-/

namespace Icm.Rpc

open Icm.Lib Function List

structure MuxedConnection where
  tms : MuxedTms
  keys : List UInt32
  observers : List ℕ
  nodup_keys : keys.Nodup
  mem_keys : ∀ requestId, requestId ∈ keys ↔ (tms.dispatcherTable requestId).isSome

namespace MuxedConnection

variable (c : MuxedConnection)

def create : MuxedConnection := ⟨.create, [], [], .nil, by simp [MuxedTms.create]⟩

def dispatchers : List DispatcherPtr := c.keys.filterMap c.tms.dispatcherTable

variable {rd : DispatcherPtr}

theorem mem_dispatchers :
    rd ∈ c.dispatchers ↔ ∃ requestId, c.tms.dispatcherTable requestId = some rd := by
  rw [dispatchers, mem_filterMap]
  refine ⟨fun ⟨requestId, _, h⟩ => ⟨requestId, h⟩, fun ⟨requestId, h⟩ => ⟨requestId, ?_, h⟩⟩
  rw [c.mem_keys, h]
  rfl

theorem dispatchers_eq_nil : c.dispatchers = [] ↔ c.keys = [] := by
  refine ⟨fun h => eq_nil_iff_forall_not_mem.mpr fun requestId hmem => ?_, fun h => ?_⟩
  · obtain ⟨rd, hrd⟩ := Option.isSome_iff_exists.mp ((c.mem_keys requestId).mp hmem)
    have hmem : rd ∈ c.dispatchers := c.mem_dispatchers.mpr ⟨requestId, hrd⟩
    rw [h] at hmem
    exact not_mem_nil hmem
  · rw [dispatchers, h]
    rfl

def requestId : UInt32 × MuxedConnection :=
  (c.tms.requestId.1, { c with tms := c.tms.requestId.2 })

def addObserver (i : ℕ) : MuxedConnection :=
  { c with observers := if i ∈ c.observers then c.observers else i :: c.observers }

def removeObserver (i : ℕ) : MuxedConnection :=
  { c with observers := c.observers.filter (· ≠ i) }

def bindDispatcher (requestId : UInt32) (rd : DispatcherPtr) : MuxedConnection where
  tms := (c.tms.bindDispatcher requestId rd).2
  keys := if (c.tms.dispatcherTable requestId).isSome then c.keys else requestId :: c.keys
  observers := c.observers
  nodup_keys := by
    split_ifs with h
    · exact c.nodup_keys
    · exact c.nodup_keys.cons fun hmem => h ((c.mem_keys requestId).mp hmem)
  mem_keys id := by
    simp only [MuxedTms.bindDispatcher]
    split_ifs with h
    · exact c.mem_keys id
    · by_cases hid : id = requestId
      · simp [hid]
      · simp [hid, c.mem_keys id]

def unbindDispatcher (rd : DispatcherPtr) : MuxedConnection where
  tms := (c.tms.unbindDispatcher rd).2
  keys := c.keys.filter fun requestId => c.tms.dispatcherTable requestId ≠ some rd
  observers := c.observers
  nodup_keys := c.nodup_keys.filter _
  mem_keys id := by
    simp only [MuxedTms.unbindDispatcher, mem_filter, c.mem_keys id]
    split_ifs with h <;> simp [h]

def dispatchReply (requestId replyStatus : UInt32) : Option DispatcherPtr × MuxedConnection where
  fst := (c.tms.dispatchReply requestId replyStatus).1.map Prod.fst
  snd.tms := (c.tms.dispatchReply requestId replyStatus).2
  snd.keys := c.keys.erase requestId
  snd.observers := c.observers
  snd.nodup_keys := c.nodup_keys.erase requestId
  snd.mem_keys id := by
    rw [c.nodup_keys.mem_erase_iff, c.mem_keys id, MuxedTms.dispatchReply]
    split
    · next h =>
      refine and_iff_right_of_imp fun hid => ?_
      rintro rfl
      rw [h] at hid
      exact nomatch hid
    · by_cases hid : id = requestId
      · simp [hid]
      · simp [hid]

theorem mem_dispatchers_bindDispatcher {requestId : UInt32} {rd rd' : DispatcherPtr}
    (h : rd' ∈ (c.bindDispatcher requestId rd).dispatchers) : rd' ∈ c.dispatchers ∨ rd' = rd := by
  obtain ⟨id, hid⟩ := (mem_dispatchers _).mp h
  simp only [bindDispatcher, MuxedTms.bindDispatcher] at hid
  split_ifs at hid
  · exact .inl (c.mem_dispatchers.mpr ⟨id, hid⟩)
  · by_cases hne : id = requestId
    · rw [hne, update_self] at hid
      exact .inr (Option.some.inj hid).symm
    · rw [update_of_ne hne] at hid
      exact .inl (c.mem_dispatchers.mpr ⟨id, hid⟩)

theorem mem_dispatchers_unbindDispatcher {rd rd' : DispatcherPtr}
    (h : rd' ∈ (c.unbindDispatcher rd).dispatchers) : rd' ∈ c.dispatchers ∧ rd' ≠ rd := by
  obtain ⟨id, hid⟩ := (mem_dispatchers _).mp h
  simp only [unbindDispatcher, MuxedTms.unbindDispatcher] at hid
  split_ifs at hid with hrd
  refine ⟨c.mem_dispatchers.mpr ⟨id, hid⟩, ?_⟩
  rintro rfl
  exact hrd hid

variable {requestId replyStatus : UInt32}

theorem mem_dispatchers_of_dispatchReply
    (h : (c.dispatchReply requestId replyStatus).1 = some rd) : rd ∈ c.dispatchers := by
  simp only [dispatchReply, MuxedTms.dispatchReply] at h
  split at h
  · exact nomatch h
  · next rd' hrd' => exact c.mem_dispatchers.mpr ⟨requestId, hrd'.trans h⟩

theorem mem_dispatchers_dispatchReply
    (h : rd ∈ (c.dispatchReply requestId replyStatus).2.dispatchers) : rd ∈ c.dispatchers := by
  obtain ⟨id, hid⟩ := (mem_dispatchers _).mp h
  simp only [dispatchReply, MuxedTms.dispatchReply] at hid
  split at hid
  · exact c.mem_dispatchers.mpr ⟨id, hid⟩
  · dsimp only at hid
    by_cases hne : id = requestId
    · rw [hne, update_self] at hid
      exact nomatch hid
    · rw [update_of_ne hne] at hid
      exact c.mem_dispatchers.mpr ⟨id, hid⟩

theorem mem_observers_addObserver {i j : ℕ} :
    j ∈ (c.addObserver i).observers ↔ j = i ∨ j ∈ c.observers := by
  simp only [addObserver]
  split_ifs with h
  · refine ⟨.inr, ?_⟩
    rintro (rfl | hj)
    exacts [h, hj]
  · exact mem_cons

theorem mem_observers_removeObserver {i j : ℕ} :
    j ∈ (c.removeObserver i).observers ↔ j ∈ c.observers ∧ j ≠ i := by
  simp [removeObserver]

end MuxedConnection

structure TwowayInvocation where
  requestId : UInt32
  tms : Bool
  deriving DecidableEq

def TwowayInvocation.onTmsDestructed (inv : TwowayInvocation) : TwowayInvocation :=
  { inv with tms := false }

/-- The connection, until its `MuxedTms` is destroyed, the invocations that live, how many were
created, the dispatchers that replies were taken for and that are not called yet, those that were
deleted, as often as they were, and those that were used after that. -/
structure Ownership where
  connection : Option MuxedConnection
  invocations : ℕ → Option TwowayInvocation
  created : ℕ
  replying : List DispatcherPtr
  deleted : List DispatcherPtr
  usedLate : List DispatcherPtr

/-- What happens: the constructor of an invocation, `start` when it returns `0`, the call of
`bindDispatcher`, the arrival of a reply, the call of a dispatcher that this took out of the table,
a look of the invocation at its dispatcher, a timeout of `wait`, after which the connection is
closed, and the destructors. -/
inductive OwnershipEvent
  | construct
  | start (i : ℕ)
  | bind (i : ℕ)
  | reply (requestId replyStatus : UInt32)
  | dispatch (rd : DispatcherPtr)
  | look (i : ℕ)
  | timeout (i : ℕ) (closes : Bool)
  | destroyTms
  | destruct (i : ℕ)
  deriving DecidableEq

namespace Ownership

def create : Ownership := ⟨some .create, fun _ => none, 0, [], [], []⟩

variable (s : Ownership)

def use (rd : DispatcherPtr) : Ownership :=
  { s with usedLate := if rd ∈ s.deleted then rd :: s.usedLate else s.usedLate }

def construct : Ownership :=
  { s with
    invocations := update s.invocations s.created (some ⟨0, false⟩)
    created := s.created + 1 }

def start (i : ℕ) : Ownership :=
  match s.invocations i, s.connection with
  | some _, some c =>
    { s with
      connection := some (c.requestId.2.addObserver i)
      invocations := update s.invocations i (some ⟨c.requestId.1, true⟩) }
  | _, _ => s

def bind (i : ℕ) : Ownership :=
  match s.invocations i, s.connection with
  | some inv, some c =>
    if inv.tms then { s with connection := some (c.bindDispatcher inv.requestId i) } else s
  | _, _ => s

def reply (requestId replyStatus : UInt32) : Ownership :=
  match s.connection with
  | none => s
  | some c =>
    match c.dispatchReply requestId replyStatus with
    | (none, _) => s
    | (some rd, c') => { s with connection := some c', replying := rd :: s.replying }

def dispatch (rd : DispatcherPtr) : Ownership :=
  if rd ∈ s.replying then { s.use rd with replying := s.replying.erase rd } else s

def look (i : ℕ) : Ownership :=
  if (s.invocations i).isSome then s.use i else s

def destroyTms : Ownership :=
  match s.connection with
  | none => s
  | some c =>
    { s with
      connection := none
      invocations := fun i =>
        if i ∈ c.observers then (s.invocations i).map TwowayInvocation.onTmsDestructed
        else s.invocations i
      deleted := c.dispatchers ++ s.deleted }

def destruct (i : ℕ) : Ownership :=
  match s.invocations i with
  | none => s
  | some inv =>
    { s with
      connection :=
        if inv.tms then s.connection.map fun c => (c.unbindDispatcher i).removeObserver i
        else s.connection
      invocations := update s.invocations i none
      deleted := i :: s.deleted }

def step : OwnershipEvent → Ownership
  | .construct => s.construct
  | .start i => s.start i
  | .bind i => s.bind i
  | .reply requestId replyStatus => s.reply requestId replyStatus
  | .dispatch rd => s.dispatch rd
  | .look i => s.look i
  | .timeout i closes => if closes then (s.look i).destroyTms else s.look i
  | .destroyTms => s.destroyTms
  | .destruct i => s.destruct i

def Ended : Prop := (∀ i, s.invocations i = none) ∧ s.replying = []

def Sole : Prop :=
  (∀ rd < s.created, s.deleted.count rd = 1) ∧ s.usedLate = []

instance (s : Ownership) : Decidable s.Sole := inferInstanceAs (Decidable (_ ∧ _))

def Vacant : Prop := ∀ c ∈ s.connection, c.keys = []

/-- The condition on an event: the `MuxedTms` is destroyed only when no dispatcher is in its table,
and an invocation only when no reply was taken for it that its dispatcher did not get yet. -/
def Settled : OwnershipEvent → Prop
  | .timeout _ true | .destroyTms => s.Vacant
  | .destruct i => i ∉ s.replying
  | _ => True

instance (s : Ownership) : Decidable s.Vacant :=
  match h : s.connection with
  | none => .isTrue fun c hc => by rw [h] at hc; exact nomatch hc
  | some c => decidable_of_iff (c.keys = []) (by simp [Vacant, h])

instance (s : Ownership) : DecidablePred s.Settled
  | .timeout _ true | .destroyTms => inferInstanceAs (Decidable s.Vacant)
  | .destruct i => inferInstanceAs (Decidable (i ∉ s.replying))
  | .timeout _ false | .construct | .start _ | .bind _ | .reply _ _ | .dispatch _ | .look _ =>
    .isTrue trivial

structure Keeps (s s' : Ownership) : Prop where
  created : s'.created = s.created
  deleted : s'.deleted = s.deleted
  isSome : ∀ i, (s'.invocations i).isSome = (s.invocations i).isSome
  usedLate : s'.usedLate = s.usedLate

theorem Keeps.refl : s.Keeps s := ⟨rfl, rfl, fun _ => rfl, rfl⟩

section keeps

variable (s : Ownership)

theorem keeps_start (i : ℕ) : s.Keeps (s.start i) := by
  rw [start]
  split
  · next inv c hinv _ =>
    refine ⟨rfl, rfl, fun j => ?_, rfl⟩
    by_cases hj : j = i
    · simp [hj, hinv]
    · simp [update_of_ne hj]
  · exact .refl s

theorem replying_start (i : ℕ) : (s.start i).replying = s.replying := by
  rw [start]
  split <;> rfl

theorem keeps_bind (i : ℕ) : s.Keeps (s.bind i) := by
  rw [bind]
  split
  · split_ifs
    · exact ⟨rfl, rfl, fun _ => rfl, rfl⟩
    · exact .refl s
  · exact .refl s

theorem replying_bind (i : ℕ) : (s.bind i).replying = s.replying := by
  rw [bind]
  split
  · split_ifs <;> rfl
  · rfl

theorem keeps_reply (requestId replyStatus : UInt32) :
    s.Keeps (s.reply requestId replyStatus) := by
  rw [reply]
  split
  · exact .refl s
  · split
    · exact .refl s
    · exact ⟨rfl, rfl, fun _ => rfl, rfl⟩

@[simp] theorem connection_look (i : ℕ) : (s.look i).connection = s.connection := by
  rw [look]
  split_ifs <;> rfl

theorem isSome_destroyTms (i : ℕ) :
    (s.destroyTms.invocations i).isSome = (s.invocations i).isSome := by
  rw [destroyTms]
  split
  · rfl
  · dsimp only
    split_ifs
    · exact Option.isSome_map
    · rfl

end keeps

def tabled (s : Ownership) : List DispatcherPtr :=
  s.connection.elim [] MuxedConnection.dispatchers

variable {s : Ownership} {rd : DispatcherPtr}

theorem mem_tabled :
    rd ∈ s.tabled ↔ ∃ c ∈ s.connection, rd ∈ c.dispatchers := by
  rw [tabled]
  cases s.connection <;> simp

theorem vacant_iff_tabled_eq : s.Vacant ↔ s.tabled = [] := by
  rw [Vacant, tabled]
  cases s.connection <;> simp [MuxedConnection.dispatchers_eq_nil]

theorem deleted_destroyTms (s : Ownership) : s.destroyTms.deleted = s.tabled ++ s.deleted := by
  rw [destroyTms, tabled]
  split <;> simp [*]

def tally (s : Ownership) (rd : DispatcherPtr) : ℕ :=
  s.deleted.count rd + if (s.invocations rd).isSome then 1 else 0

theorem Keeps.tally {s s' : Ownership} (h : s.Keeps s') (rd : DispatcherPtr) :
    s'.tally rd = s.tally rd := by
  rw [Ownership.tally, Ownership.tally, h.deleted, h.isSome]

section tally

variable (s : Ownership) (rd : DispatcherPtr)

theorem tally_construct (h : rd < s.created) : s.construct.tally rd = s.tally rd := by
  simp only [tally, construct, update_of_ne h.ne]

theorem tally_dispatch (rd' : DispatcherPtr) : (s.dispatch rd').tally rd = s.tally rd := by
  rw [dispatch]
  split_ifs <;> rfl

theorem tally_look (i : ℕ) : (s.look i).tally rd = s.tally rd := by
  rw [look]
  split_ifs <;> rfl

theorem tally_destruct (i : ℕ) : (s.destruct i).tally rd = s.tally rd := by
  rw [destruct]
  split
  · rfl
  · next inv hinv =>
    by_cases hrd : rd = i
    · simp [tally, hrd, hinv]
    · simp [tally, update_of_ne hrd, count_cons_of_ne (Ne.symm hrd)]

theorem tally_destroyTms : s.destroyTms.tally rd = s.tally rd + s.tabled.count rd := by
  rw [tally, tally, isSome_destroyTms, deleted_destroyTms, count_append]
  omega

end tally

def disowned (s : Ownership) : OwnershipEvent → List DispatcherPtr
  | .timeout _ true | .destroyTms => s.tabled
  | _ => []

theorem tally_step (s : Ownership) (e : OwnershipEvent)
    (h : rd < s.created) : (s.step e).tally rd = s.tally rd + (s.disowned e).count rd := by
  cases e with
  | construct => exact s.tally_construct rd h
  | start i => exact (s.keeps_start i).tally rd
  | bind i => exact (s.keeps_bind i).tally rd
  | reply requestId replyStatus => exact (s.keeps_reply requestId replyStatus).tally rd
  | dispatch rd' => exact s.tally_dispatch rd rd'
  | look i => exact s.tally_look rd i
  | timeout i closes =>
    cases closes with
    | false => exact s.tally_look rd i
    | true =>
      refine ((s.look i).tally_destroyTms rd).trans ?_
      rw [tally_look, tabled, connection_look]
      rfl
  | destroyTms => exact s.tally_destroyTms rd
  | destruct i => exact s.tally_destruct rd i

structure Placed (s : Ownership) : Prop where
  fresh : ∀ i, s.created ≤ i → s.invocations i = none ∧ i ∉ s.deleted
  observed : ∀ i inv, s.invocations i = some inv → inv.tms = true →
    ∃ c ∈ s.connection, i ∈ c.observers
  bound : ∀ rd ∈ s.tabled, ∃ inv, s.invocations rd = some inv ∧ inv.tms = true

namespace Placed

theorem create : create.Placed where
  fresh _ _ := ⟨rfl, not_mem_nil⟩
  observed _ _ h := nomatch h
  bound _ h := nomatch h

variable {s : Ownership} (hs : s.Placed)

include hs

theorem lt_created {i : ℕ} (h : (s.invocations i).isSome) : i < s.created := by
  by_contra hlt
  rw [(hs.fresh i (Nat.le_of_not_lt hlt)).1] at h
  exact nomatch h

theorem fresh_of_keeps {s' : Ownership} (h : s.Keeps s') (i : ℕ) (hi : s'.created ≤ i) :
    s'.invocations i = none ∧ i ∉ s'.deleted := by
  obtain ⟨hnone, hdeleted⟩ := hs.fresh i (h.created ▸ hi)
  refine ⟨Option.not_isSome_iff_eq_none.mp ?_, h.deleted ▸ hdeleted⟩
  rw [h.isSome, hnone]
  exact Bool.false_ne_true

theorem construct : s.construct.Placed where
  fresh i hi := by
    obtain ⟨hnone, hdeleted⟩ := hs.fresh i (Nat.le_of_succ_le hi)
    exact ⟨(update_of_ne (Nat.ne_of_gt hi) _ _).trans hnone, hdeleted⟩
  observed i inv hi htms := by
    simp only [Ownership.construct] at hi
    by_cases hnew : i = s.created
    · rw [hnew, update_self] at hi
      cases hi
      exact nomatch htms
    · rw [update_of_ne hnew] at hi
      exact hs.observed i inv hi htms
  bound rd hrd := by
    obtain ⟨inv, hinv, htms⟩ := hs.bound rd hrd
    have hlt : rd < s.created := hs.lt_created (by simp [hinv])
    exact ⟨inv, (update_of_ne hlt.ne _ _).trans hinv, htms⟩

theorem mem_observers {c : MuxedConnection} (hc : s.connection = some c) {i : ℕ}
    {inv : TwowayInvocation} (hinv : s.invocations i = some inv) (htms : inv.tms = true) :
    i ∈ c.observers := by
  obtain ⟨c', hc', hmem⟩ := hs.observed i inv hinv htms
  cases hc.symm.trans hc'
  exact hmem

theorem start (i : ℕ) : (s.start i).Placed := by
  refine ⟨hs.fresh_of_keeps (s.keeps_start i), ?_, ?_⟩ <;> rw [Ownership.start]
  · intro j inv hj htms
    split at hj
    · next c _ hc =>
      dsimp only at hj ⊢
      refine ⟨_, rfl, (MuxedConnection.mem_observers_addObserver _).mpr ?_⟩
      by_cases hji : j = i
      · exact .inl hji
      · rw [update_of_ne hji] at hj
        exact .inr (hs.mem_observers hc hj htms)
    · exact hs.observed j inv hj htms
  · intro rd hrd
    split at hrd
    · next c _ hc =>
      by_cases hrdi : rd = i
      · exact ⟨_, by rw [hrdi]; exact update_self _ _ _, rfl⟩
      · obtain ⟨inv, hinv, htms⟩ := hs.bound rd (mem_tabled.mpr ⟨c, hc, hrd⟩)
        exact ⟨inv, (update_of_ne hrdi _ _).trans hinv, htms⟩
    · exact hs.bound rd hrd

theorem bind (i : ℕ) : (s.bind i).Placed := by
  rw [Ownership.bind]
  split
  · next inv c hinv hc =>
    split_ifs with htms
    · refine ⟨hs.fresh, fun j inv' hj htms' => ⟨_, rfl, hs.mem_observers hc hj htms'⟩,
        fun rd hrd => ?_⟩
      rcases c.mem_dispatchers_bindDispatcher hrd with hold | rfl
      · exact hs.bound rd (mem_tabled.mpr ⟨c, hc, hold⟩)
      · exact ⟨inv, hinv, htms⟩
    · exact hs
  · exact hs

theorem reply (requestId replyStatus : UInt32) : (s.reply requestId replyStatus).Placed := by
  rw [Ownership.reply]
  split
  · exact hs
  · next c hc =>
    split
    · exact hs
    · next rd c' hc' =>
      obtain rfl : (c.dispatchReply requestId replyStatus).2 = c' := by rw [hc']
      refine ⟨hs.fresh, fun j inv hj htms => ⟨_, rfl, hs.mem_observers hc hj htms⟩,
        fun rd' hrd' => ?_⟩
      exact hs.bound rd' (mem_tabled.mpr ⟨c, hc, c.mem_dispatchers_dispatchReply hrd'⟩)

theorem dispatch (rd : DispatcherPtr) : (s.dispatch rd).Placed := by
  rw [Ownership.dispatch]
  split_ifs
  · exact ⟨hs.fresh, hs.observed, hs.bound⟩
  · exact hs

theorem look (i : ℕ) : (s.look i).Placed := by
  rw [Ownership.look]
  split_ifs
  · exact ⟨hs.fresh, hs.observed, hs.bound⟩
  · exact hs

theorem destroyTms : s.destroyTms.Placed := by
  rw [Ownership.destroyTms]
  split
  · exact hs
  · next c hc =>
    refine ⟨fun i hi => ⟨?_, ?_⟩, fun i inv hi htms => ?_, fun rd hrd => nomatch hrd⟩
    · simp only [(hs.fresh i hi).1]
      split_ifs <;> rfl
    · rintro hmem
      rcases mem_append.mp hmem with htable | hold
      · obtain ⟨inv, hinv, -⟩ := hs.bound i (mem_tabled.mpr ⟨c, hc, htable⟩)
        rw [(hs.fresh i hi).1] at hinv
        exact nomatch hinv
      · exact (hs.fresh i hi).2 hold
    · -- Every invocation that has the pointer is an observer, so it was told.
      dsimp only at hi
      split_ifs at hi with hobserver
      · obtain ⟨inv', -, rfl⟩ := Option.map_eq_some_iff.mp hi
        exact nomatch htms
      · exact absurd (hs.mem_observers hc hi htms) hobserver

theorem destruct (i : ℕ) : (s.destruct i).Placed := by
  rw [Ownership.destruct]
  split
  · exact hs
  · next inv hinv =>
    have hlt : i < s.created := hs.lt_created (by simp [hinv])
    refine ⟨fun j hj => ?_, fun j inv' hj htms => ?_, fun rd hrd => ?_⟩
    · have hne : j ≠ i := Nat.ne_of_gt (Nat.lt_of_lt_of_le hlt hj)
      refine ⟨(update_of_ne hne _ _).trans (hs.fresh j hj).1, fun hmem => ?_⟩
      rcases mem_cons.mp hmem with hji | hold
      · exact hne hji
      · exact (hs.fresh j hj).2 hold
    · dsimp only at hj ⊢
      have hne : j ≠ i := by
        rintro rfl
        rw [update_self] at hj
        exact nomatch hj
      rw [update_of_ne hne] at hj
      obtain ⟨c, hc, hmem⟩ := hs.observed j inv' hj htms
      split_ifs
      · refine ⟨_, Option.mem_map_of_mem _ hc, ?_⟩
        exact (MuxedConnection.mem_observers_removeObserver _).mpr ⟨hmem, hne⟩
      · exact ⟨c, hc, hmem⟩
    · obtain ⟨c', hc', hmem⟩ := mem_tabled.mp hrd
      have hkept : rd ∈ s.tabled ∧ rd ≠ i := by
        dsimp only at hc'
        split_ifs at hc' with htms
        · obtain ⟨c, hc, rfl⟩ := Option.map_eq_some_iff.mp hc'
          obtain ⟨hold, hne⟩ := c.mem_dispatchers_unbindDispatcher hmem
          exact ⟨mem_tabled.mpr ⟨c, hc, hold⟩, hne⟩
        · -- An invocation without the pointer has no dispatcher in the table.
          have htabled : rd ∈ s.tabled := mem_tabled.mpr ⟨c', hc', hmem⟩
          refine ⟨htabled, ?_⟩
          rintro rfl
          obtain ⟨inv', hinv', htms'⟩ := hs.bound rd htabled
          cases hinv.symm.trans hinv'
          exact htms htms'
      obtain ⟨inv', hinv', htms⟩ := hs.bound rd hkept.1
      exact ⟨inv', (update_of_ne hkept.2 _ _).trans hinv', htms⟩

theorem step (e : OwnershipEvent) : (s.step e).Placed := by
  cases e with
  | construct => exact hs.construct
  | start i => exact hs.start i
  | bind i => exact hs.bind i
  | reply requestId replyStatus => exact hs.reply requestId replyStatus
  | dispatch rd => exact hs.dispatch rd
  | look i => exact hs.look i
  | timeout i closes =>
    cases closes with
    | false => exact hs.look i
    | true => exact (hs.look i).destroyTms
  | destroyTms => exact hs.destroyTms
  | destruct i => exact hs.destruct i

end Placed

/-- The invariant of settled runs: a dispatcher that was created is to be deleted by an invocation
that lives or was deleted once, and a reply is on its way to a living invocation only. -/
structure Owned (s : Ownership) : Prop extends s.Placed where
  tally_eq : ∀ rd < s.created, s.tally rd = 1
  living : ∀ rd ∈ s.replying, (s.invocations rd).isSome
  usedLate : s.usedLate = []

namespace Owned

theorem create : create.Owned where
  toPlaced := .create
  tally_eq _ h := nomatch h
  living _ h := nomatch h
  usedLate := rfl

variable {s : Ownership} (hs : s.Owned)

include hs

theorem notMem_deleted {i : ℕ} (h : (s.invocations i).isSome) : i ∉ s.deleted := by
  have htally := hs.tally_eq i (hs.lt_created h)
  rw [tally, if_pos h] at htally
  exact count_eq_zero.mp (by omega)

theorem use_eq {i : ℕ} (h : (s.invocations i).isSome) : s.use i = s := by
  rw [use, if_neg (hs.notMem_deleted h)]

theorem look_eq (i : ℕ) : s.look i = s := by
  rw [look]
  split_ifs with h
  · exact hs.use_eq h
  · rfl

theorem of_keeps {s' : Ownership} (h : s.Keeps s') (hplaced : s'.Placed)
    (hreplying : ∀ rd ∈ s'.replying, (s.invocations rd).isSome) : s'.Owned where
  toPlaced := hplaced
  tally_eq rd hrd := (h.tally rd).trans (hs.tally_eq rd (h.created ▸ hrd))
  living rd hrd := (h.isSome rd).trans (hreplying rd hrd)
  usedLate := h.usedLate.trans hs.usedLate

theorem construct : s.construct.Owned where
  toPlaced := hs.toPlaced.construct
  tally_eq rd hrd := by
    rcases Nat.lt_succ_iff_lt_or_eq.mp hrd with hlt | rfl
    · exact (s.tally_construct rd hlt).trans (hs.tally_eq rd hlt)
    · have hdeleted : s.deleted.count s.created = 0 :=
        count_eq_zero.mpr (hs.fresh s.created le_rfl).2
      simp [tally, Ownership.construct, hdeleted]
  living rd hrd := by
    have hlive := hs.living rd hrd
    simp only [Ownership.construct, update_of_ne (hs.lt_created hlive).ne]
    exact hlive
  usedLate := hs.usedLate

theorem reply (requestId replyStatus : UInt32) : (s.reply requestId replyStatus).Owned := by
  refine hs.of_keeps (s.keeps_reply _ _) (hs.toPlaced.reply _ _) fun rd hrd => ?_
  rw [Ownership.reply] at hrd
  split at hrd
  · exact hs.living rd hrd
  · next c hc =>
    split at hrd
    · exact hs.living rd hrd
    · next rd' c' hc' =>
      rcases mem_cons.mp hrd with rfl | hold
      · have hmem : rd ∈ c.dispatchers := c.mem_dispatchers_of_dispatchReply (congrArg Prod.fst hc')
        obtain ⟨inv, hinv, -⟩ := hs.bound rd (mem_tabled.mpr ⟨c, hc, hmem⟩)
        rw [hinv]
        rfl
      · exact hs.living rd hold

theorem dispatch (rd : DispatcherPtr) : (s.dispatch rd).Owned := by
  have hplaced := hs.toPlaced.dispatch rd
  rw [Ownership.dispatch] at hplaced ⊢
  split_ifs at hplaced ⊢ with h
  · rw [hs.use_eq (hs.living rd h)] at hplaced ⊢
    exact hs.of_keeps ⟨rfl, rfl, fun _ => rfl, rfl⟩ hplaced
      fun rd' hrd' => hs.living rd' (mem_of_mem_erase hrd')
  · exact hs

theorem destroyTms (h : s.Vacant) : s.destroyTms.Owned := by
  have hdeleted : s.destroyTms.deleted = s.deleted := by
    rw [deleted_destroyTms, vacant_iff_tabled_eq.mp h]
    rfl
  have hrest : s.destroyTms.created = s.created ∧ s.destroyTms.replying = s.replying ∧
      s.destroyTms.usedLate = s.usedLate := by
    rw [Ownership.destroyTms]
    split <;> exact ⟨rfl, rfl, rfl⟩
  exact hs.of_keeps ⟨hrest.1, hdeleted, s.isSome_destroyTms, hrest.2.2⟩ hs.toPlaced.destroyTms
    (hrest.2.1 ▸ hs.living)

theorem destruct {i : ℕ} (h : i ∉ s.replying) : (s.destruct i).Owned := by
  have hrest : (s.destruct i).created = s.created ∧ (s.destruct i).replying = s.replying ∧
      (s.destruct i).usedLate = s.usedLate := by
    rw [Ownership.destruct]
    split <;> exact ⟨rfl, rfl, rfl⟩
  refine ⟨hs.toPlaced.destruct i, fun rd hrd => ?_, fun rd hrd => ?_, hrest.2.2.trans hs.usedLate⟩
  · exact (s.tally_destruct rd i).trans (hs.tally_eq rd (hrest.1 ▸ hrd))
  · rw [hrest.2.1] at hrd
    have hne : rd ≠ i := by
      rintro rfl
      exact h hrd
    rw [Ownership.destruct]
    split
    · exact hs.living rd hrd
    · simp only [update_of_ne hne]
      exact hs.living rd hrd

theorem step {e : OwnershipEvent} (he : s.Settled e) : (s.step e).Owned := by
  cases e with
  | construct => exact hs.construct
  | start i =>
    exact hs.of_keeps (s.keeps_start i) (hs.toPlaced.start i) (s.replying_start i ▸ hs.living)
  | bind i =>
    exact hs.of_keeps (s.keeps_bind i) (hs.toPlaced.bind i) (s.replying_bind i ▸ hs.living)
  | reply requestId replyStatus => exact hs.reply requestId replyStatus
  | dispatch rd => exact hs.dispatch rd
  | look i =>
    rw [Ownership.step, hs.look_eq i]
    exact hs
  | timeout i closes =>
    rw [Ownership.step, hs.look_eq i]
    cases closes with
    | false => exact hs
    | true => exact hs.destroyTms he
  | destroyTms => exact hs.destroyTms he
  | destruct i => exact hs.destruct he

theorem sole (h : s.Ended) : s.Sole := by
  refine ⟨fun rd hrd => ?_, hs.usedLate⟩
  have htally := hs.tally_eq rd hrd
  rwa [tally, h.1 rd, if_neg (by simp), Nat.add_zero] at htally

end Owned

def Doomed (s : Ownership) (rd : DispatcherPtr) : Prop :=
  rd < s.created ∧
    (2 ≤ s.tally rd ∨ (rd ∈ s.replying ∧ rd ∈ s.deleted) ∨ rd ∈ s.usedLate)

structure Grows (s s' : Ownership) : Prop where
  created : s.created ≤ s'.created
  deleted : s.deleted ⊆ s'.deleted
  usedLate : s.usedLate ⊆ s'.usedLate
  replying : ∀ rd ∈ s.replying, rd ∈ s'.replying ∨ (rd ∈ s.deleted → rd ∈ s'.usedLate)

theorem Grows.refl (s : Ownership) : s.Grows s :=
  ⟨le_rfl, List.Subset.refl _, List.Subset.refl _, fun _ => .inl⟩

theorem Grows.trans {s s' s'' : Ownership} (h : s.Grows s') (h' : s'.Grows s'') :
    s.Grows s'' where
  created := h.created.trans h'.created
  deleted := List.Subset.trans h.deleted h'.deleted
  usedLate := List.Subset.trans h.usedLate h'.usedLate
  replying rd hrd := by
    rcases h.replying rd hrd with hstill | hused
    · rcases h'.replying rd hstill with hstill' | hused'
      · exact .inl hstill'
      · exact .inr fun hdeleted => hused' (h.deleted hdeleted)
    · exact .inr fun hdeleted => h'.usedLate (hused hdeleted)

theorem Keeps.grows {s s' : Ownership} (h : s.Keeps s') (hreplying : s.replying ⊆ s'.replying) :
    s.Grows s' where
  created := h.created.ge
  deleted := h.deleted ▸ List.Subset.refl _
  usedLate := h.usedLate ▸ List.Subset.refl _
  replying _ hrd := .inl (hreplying hrd)

section grows

variable (s : Ownership)

theorem usedLate_subset_use (rd : DispatcherPtr) : s.usedLate ⊆ (s.use rd).usedLate := by
  rw [use]
  dsimp only
  split_ifs
  · exact subset_cons_self _ _
  · exact List.Subset.refl _

theorem grows_reply (requestId replyStatus : UInt32) :
    s.Grows (s.reply requestId replyStatus) := by
  refine (s.keeps_reply requestId replyStatus).grows ?_
  rw [reply]
  split
  · exact List.Subset.refl _
  · split
    · exact List.Subset.refl _
    · exact subset_cons_self _ _

theorem grows_dispatch (rd : DispatcherPtr) : s.Grows (s.dispatch rd) := by
  rw [dispatch]
  split_ifs
  · refine ⟨le_rfl, List.Subset.refl _, s.usedLate_subset_use rd, fun rd' hrd' => ?_⟩
    by_cases hne : rd' = rd
    · refine .inr fun hdeleted => ?_
      rw [hne] at hdeleted ⊢
      simp [use, hdeleted]
    · exact .inl ((mem_erase_of_ne hne).mpr hrd')
  · exact .refl s

theorem grows_look (i : ℕ) : s.Grows (s.look i) := by
  rw [look]
  split_ifs
  · exact ⟨le_rfl, List.Subset.refl _, s.usedLate_subset_use i, fun _ => .inl⟩
  · exact .refl s

theorem grows_destroyTms : s.Grows s.destroyTms := by
  rw [destroyTms]
  split
  · exact .refl s
  · exact ⟨le_rfl, subset_append_right _ _, List.Subset.refl _, fun _ => .inl⟩

theorem grows_destruct (i : ℕ) : s.Grows (s.destruct i) := by
  rw [destruct]
  split
  · exact .refl s
  · exact ⟨le_rfl, subset_cons_self _ _, List.Subset.refl _, fun _ => .inl⟩

theorem grows_step (e : OwnershipEvent) : s.Grows (s.step e) := by
  cases e with
  | construct =>
    exact ⟨Nat.le_succ _, List.Subset.refl _, List.Subset.refl _, fun _ => .inl⟩
  | start i => exact (s.keeps_start i).grows (s.replying_start i ▸ List.Subset.refl _)
  | bind i => exact (s.keeps_bind i).grows (s.replying_bind i ▸ List.Subset.refl _)
  | reply requestId replyStatus => exact s.grows_reply requestId replyStatus
  | dispatch rd => exact s.grows_dispatch rd
  | look i => exact s.grows_look i
  | timeout i closes =>
    cases closes with
    | false => exact s.grows_look i
    | true => exact (s.grows_look i).trans (s.look i).grows_destroyTms
  | destroyTms => exact s.grows_destroyTms
  | destruct i => exact s.grows_destruct i

end grows

namespace Doomed

variable {s : Ownership} {rd : DispatcherPtr}

theorem step (h : s.Doomed rd) (e : OwnershipEvent) : (s.step e).Doomed rd := by
  have hgrows := s.grows_step e
  obtain ⟨hlt, htwice | ⟨hreplying, hdeleted⟩ | hused⟩ := h
  · refine ⟨hlt.trans_le hgrows.created, .inl ?_⟩
    rw [tally_step s e hlt]
    exact htwice.trans (Nat.le_add_right _ _)
  · refine ⟨hlt.trans_le hgrows.created, .inr ?_⟩
    rcases hgrows.replying rd hreplying with hstill | hlate
    · exact .inl ⟨hstill, hgrows.deleted hdeleted⟩
    · exact .inr (hlate hdeleted)
  · exact ⟨hlt.trans_le hgrows.created, .inr (.inr (hgrows.usedLate hused))⟩

theorem run (h : s.Doomed rd) (es : List OwnershipEvent) :
    (es.foldl Ownership.step s).Doomed rd := by
  induction es generalizing s with
  | nil => exact h
  | cons e es ih => exact ih (h.step e)

theorem not_sole (h : s.Doomed rd) (hend : s.Ended) : ¬ s.Sole := by
  rintro ⟨honce, hlate⟩
  obtain ⟨hlt, htwice | ⟨hreplying, -⟩ | hused⟩ := h
  · rw [tally, honce rd hlt, hend.1 rd, if_neg (by simp)] at htwice
    exact absurd htwice (by decide)
  · rw [hend.2] at hreplying
    exact not_mem_nil hreplying
  · rw [hlate] at hused
    exact not_mem_nil hused

end Doomed

theorem Owned.doomed_of_mem_disowned (hs : s.Owned) {e : OwnershipEvent}
    (htabled : rd ∈ s.tabled) (h : rd ∈ s.disowned e) :
    (s.step e).Doomed rd := by
  obtain ⟨inv, hinv, -⟩ := hs.bound rd htabled
  have hlt : rd < s.created := hs.lt_created (by simp [hinv])
  refine ⟨hlt.trans_le (s.grows_step e).created, .inl ?_⟩
  rw [tally_step s e hlt, hs.tally_eq rd hlt]
  have hcount := count_pos_iff.mpr h
  omega

theorem Owned.exists_doomed (hs : s.Owned) {e : OwnershipEvent}
    (he : ¬ s.Settled e) : ∃ rd, (s.step e).Doomed rd := by
  have htable (h : ¬ s.Vacant) : ∃ rd, rd ∈ s.tabled :=
    exists_mem_of_ne_nil _ (mt vacant_iff_tabled_eq.mpr h)
  unfold Settled at he
  split at he
  · obtain ⟨rd, hrd⟩ := htable he
    exact ⟨rd, hs.doomed_of_mem_disowned hrd hrd⟩
  · obtain ⟨rd, hrd⟩ := htable he
    exact ⟨rd, hs.doomed_of_mem_disowned hrd hrd⟩
  · next i =>
    have hreplying : i ∈ s.replying := not_not.mp he
    obtain ⟨inv, hinv⟩ := Option.isSome_iff_exists.mp (hs.living i hreplying)
    refine ⟨i, hs.lt_created (hs.living i hreplying) |>.trans_le (s.grows_step _).created,
      .inr (.inl ?_)⟩
    rw [Ownership.step, Ownership.destruct, hinv]
    exact ⟨hreplying, mem_cons_self⟩
  · exact absurd trivial he

theorem Owned.eachStep_settled (hs : s.Owned) {es : List OwnershipEvent}
    (hend : (es.foldl Ownership.step s).Ended) (hsole : (es.foldl Ownership.step s).Sole) :
    EachStep (total Ownership.step) Settled s es := by
  induction es generalizing s with
  | nil => trivial
  | cons e es ih =>
    have he : s.Settled e := by
      by_contra he
      obtain ⟨rd, hrd⟩ := hs.exists_doomed he
      exact (hrd.run es).not_sole hend hsole
    exact (eachStep_cons_of_ok rfl).mpr ⟨he, ih (hs.step he) hend hsole⟩

theorem ended_run_iff {es : List OwnershipEvent} : (es.foldl step create).Ended ↔
    (∀ i < (es.foldl step create).created, (es.foldl step create).invocations i = none) ∧
      (es.foldl step create).replying = [] := by
  have hall : EachStep (total step) (fun _ _ => True) create es := eachStep_true _ _
  have hplaced : (es.foldl step create).Placed :=
    foldl_invariant (I := Placed) (fun _ e hs _ => hs.step e) .create hall
  refine and_congr_left fun _ => ⟨fun h i _ => h i, fun h i => ?_⟩
  by_cases hi : i < (es.foldl step create).created
  · exact h i hi
  · exact (hplaced.fresh i (Nat.le_of_not_lt hi)).1

def orderly : List OwnershipEvent :=
  [.construct, .start 0, .bind 0, .construct, .start 1, .bind 1, .reply 1 0, .dispatch 1, .look 1,
    .timeout 0 false, .destruct 0, .reply 0 0, .destruct 1, .destroyTms]

def timedOut : List OwnershipEvent :=
  [.construct, .start 0, .bind 0, .timeout 0 true, .destruct 0]

end Ownership

end Icm.Rpc
