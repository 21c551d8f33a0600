import Icm.Messaging.Broker

/-!
# The subscriber's side

Class `SubscribeClient` of `msg/SubscribeClient.cpp`. The application names the topics it wants; the
loop of the client sends the requests to the broker, and the answers move a topic from one set to
another.
-/

namespace Icm.Messaging

open Icm.Lib Icm.Stream List

@[ext] structure TopicSet where
  topics : List Topic
  nodup : topics.Nodup
  deriving DecidableEq

namespace TopicSet

instance : Membership Topic TopicSet := ⟨fun s topic => topic ∈ s.topics⟩

instance (topic : Topic) (s : TopicSet) : Decidable (topic ∈ s) :=
  inferInstanceAs (Decidable (topic ∈ s.topics))

instance : EmptyCollection TopicSet := ⟨⟨[], nodup_nil⟩⟩

def insert (s : TopicSet) (topic : Topic) : TopicSet :=
  if h : topic ∈ s then s
  else ⟨s.topics.orderedInsert (· ≤ ·) topic,
    (perm_orderedInsert _ topic s.topics).nodup_iff.mpr (nodup_cons.mpr ⟨h, s.nodup⟩)⟩

def erase (s : TopicSet) (topic : Topic) : TopicSet := ⟨s.topics.erase topic, s.nodup.erase topic⟩

variable {s : TopicSet} {topic t : Topic}

@[simp] theorem notMem_empty : t ∉ (∅ : TopicSet) := not_mem_nil

@[simp] theorem mem_insert : t ∈ s.insert topic ↔ t = topic ∨ t ∈ s := by
  rw [insert]
  split_ifs with h
  · exact ⟨Or.inr, fun ht => ht.elim (fun heq => heq ▸ h) id⟩
  · exact mem_orderedInsert _

@[simp] theorem mem_erase : t ∈ s.erase topic ↔ t ≠ topic ∧ t ∈ s := s.nodup.mem_erase_iff

theorem mem_foldl_insert {topics : List Topic} :
    t ∈ topics.foldl insert s ↔ t ∈ topics ∨ t ∈ s := by
  induction topics generalizing s with
  | nil => simp
  | cons topic topics ih => rw [foldl_cons, ih, mem_insert, mem_cons, or_assoc,
      or_left_comm]

end TopicSet

inductive ClientAssertion
  | subscribeTopic
  | toSubscribe
  | notSubscribed
  | unSubscribeTopic
  | subscribed
  deriving DecidableEq, Repr

structure SubscribeClient where
  subcribedTopics : TopicSet
  toSubcribeTopics : TopicSet
  toUnSubcribeTopics : TopicSet
  id : ClientId
  connectionErrorPending : Bool
  deriving DecidableEq

namespace SubscribeClient

variable (c : SubscribeClient)

def subscribeTopic (topic : Topic) : SubscribeClient :=
  if topic ∈ c.subcribedTopics then c
  else { c with
    toSubcribeTopics := c.toSubcribeTopics.insert topic
    toUnSubcribeTopics := c.toUnSubcribeTopics.erase topic }

def unSubscribeTopic (topic : Topic) : SubscribeClient :=
  if topic ∈ c.toSubcribeTopics then { c with toSubcribeTopics := c.toSubcribeTopics.erase topic }
  else if topic ∉ c.subcribedTopics then c
  else { c with toUnSubcribeTopics := c.toUnSubcribeTopics.insert topic }

def onSubScribeTopicOk (topic : Topic) (clientId : ClientId) :
    Except ClientAssertion SubscribeClient := do
  require .subscribeTopic (topic ≠ [])
  require .toSubscribe (topic ∈ c.toSubcribeTopics)
  require .notSubscribed (topic ∉ c.subcribedTopics)
  return { c with
    toSubcribeTopics := c.toSubcribeTopics.erase topic
    subcribedTopics := c.subcribedTopics.insert topic
    id := if clientId ≠ Broker.noId ∧ c.id = Broker.noId then clientId else c.id }

def onUnSubScribeTopicOk (topic : Topic) : Except ClientAssertion SubscribeClient := do
  require .unSubscribeTopic (topic ≠ [])
  require .subscribed (topic ∈ c.subcribedTopics)
  return { c with subcribedTopics := c.subcribedTopics.erase topic }

def onConnError : SubscribeClient :=
  { c with
    toSubcribeTopics := (c.subcribedTopics.topics.filter (· ∉ c.toUnSubcribeTopics)).foldl
      TopicSet.insert c.toSubcribeTopics
    subcribedTopics := ∅ }

end SubscribeClient

inductive RequestType
  | subscribe
  | unSubscribe
  deriving DecidableEq, Repr

structure Request where
  type : RequestType
  topic : Topic
  id : ClientId
  deriving DecidableEq

def heard (s : List UInt8) : List UInt8 := cString (s ++ [0])

theorem heard_eq {s : List UInt8} (h : 0 ∉ s) : heard s = s := cString_append_nul h []

/-- The client and its connection: the requests that have not been answered, the oldest first. -/
structure Session where
  client : SubscribeClient
  inFlight : List Request
  deriving DecidableEq

namespace Session

def realSubTopic (sent : Bool) (topic : Topic) (s : Session) : Bool × Session :=
  if s.client.connectionErrorPending then (false, s)
  else if sent then
    (true, { s with inFlight := s.inFlight ++ [⟨.subscribe, topic, s.client.id⟩] })
  else (false, { s with client := { s.client with connectionErrorPending := true } })

def realUnSubTopic (sent : Bool) (topic : Topic) (s : Session) : Bool × Session :=
  if s.client.connectionErrorPending then (false, s)
  else if sent then
    (true, { s with inFlight := s.inFlight ++ [⟨.unSubscribe, topic, s.client.id⟩] })
  else (false, s)

def processAll (real : Bool → Topic → Session → Bool × Session) :
    List Topic → (ℕ → Bool) → Session → Bool × Session
  | [], _, s => (true, s)
  | topic :: topics, sent, s =>
    match real (sent 0) topic s with
    | (true, s) => processAll real topics (fun i => sent (i + 1)) s
    | (false, s) => (false, { s with client := { s.client with connectionErrorPending := true } })

def processAllSubAndUnSub (sent sent' : ℕ → Bool) (s : Session) : Bool × Session :=
  match processAll realSubTopic s.client.toSubcribeTopics.topics sent s with
  | (true, s) => processAll realUnSubTopic s.client.toUnSubcribeTopics.topics sent' s
  | (false, s) => (false, s)

def onAnswer (c : SubscribeClient) (clientId : ClientId) (r : Request) :
    Except ClientAssertion SubscribeClient :=
  match r.type with
  | .subscribe => c.onSubScribeTopicOk (heard (heard r.topic)) (heard clientId)
  | .unSubscribe => c.onUnSubScribeTopicOk (heard (heard r.topic))

end Session

/-- What happens to the client: calls of the application, passes of its loop, with the results of
the sends, the next answer of the broker, the loss of the connection and a new connection. -/
inductive ClientEvent
  | subscribeTopic (topic : Topic)
  | unSubscribeTopic (topic : Topic)
  | processAllSubAndUnSub (sent sent' : ℕ → Bool)
  | answer (clientId : ClientId)
  | connectionError
  | reestablishConnection

namespace Session

def step (s : Session) : ClientEvent → Except ClientAssertion Session
  | .subscribeTopic topic => .ok { s with client := s.client.subscribeTopic topic }
  | .unSubscribeTopic topic => .ok { s with client := s.client.unSubscribeTopic topic }
  | .processAllSubAndUnSub sent sent' =>
    if s.client.connectionErrorPending then .ok s
    else .ok (processAllSubAndUnSub sent sent' s).2
  | .answer clientId =>
    match s.inFlight with
    | [] => .ok s
    | r :: rest => do
      let c ← onAnswer s.client clientId r
      return ⟨c, rest⟩
  | .connectionError => .ok ⟨{ s.client with connectionErrorPending := true }, []⟩
  | .reestablishConnection =>
    if s.client.connectionErrorPending then
      .ok ⟨{ s.client.onConnError with connectionErrorPending := false }, []⟩
    else .ok s

def start (id : ClientId) : Session := ⟨⟨∅, ∅, ∅, id, false⟩, []⟩

variable (s : Session)

def Pending (type : RequestType) (topic : Topic) : Prop :=
  (type, topic) ∈ s.inFlight.map fun r => (r.type, r.topic)

instance (s : Session) (type : RequestType) (topic : Topic) : Decidable (s.Pending type topic) :=
  inferInstanceAs (Decidable (_ ∈ _))

/-- The condition on an event. A topic is a C string and not empty; a topic is not unsubscribed
while its subscription is unanswered; and the loop makes a pass only when what it would send is not
unanswered yet, and what it would unsubscribe is subscribed. -/
def Careful : ClientEvent → Prop
  | .subscribeTopic topic => topic ≠ [] ∧ 0 ∉ topic
  | .unSubscribeTopic topic => ¬ s.Pending .subscribe topic
  | .processAllSubAndUnSub _ _ => s.client.connectionErrorPending = false →
      (∀ t ∈ s.client.toSubcribeTopics.topics, ¬ s.Pending .subscribe t) ∧
        ∀ t ∈ s.client.toUnSubcribeTopics.topics,
          t ∈ s.client.subcribedTopics ∧ ¬ s.Pending .unSubscribe t
  | _ => True

instance (s : Session) : DecidablePred s.Careful
  | .subscribeTopic _ => inferInstanceAs (Decidable (_ ∧ _))
  | .unSubscribeTopic _ => inferInstanceAs (Decidable (¬ _))
  | .processAllSubAndUnSub _ _ => inferInstanceAs (Decidable (_ → _))
  | .answer _ | .connectionError | .reestablishConnection => .isTrue trivial

def expected : RequestType → TopicSet
  | .subscribe => s.client.toSubcribeTopics
  | .unSubscribe => s.client.subcribedTopics

structure Matched (s : Session) : Prop where
  disjoint : ∀ t ∈ s.client.toSubcribeTopics, t ∉ s.client.subcribedTopics
  proper : ∀ type, ∀ t ∈ s.expected type, t ≠ [] ∧ 0 ∉ t
  mem_expected : ∀ type t, s.Pending type t → t ∈ s.expected type
  once : (s.inFlight.map fun r => (r.type, r.topic)).Nodup

def sends (type : RequestType) (topics : List Topic) (error : Bool) : Session where
  client := { s.client with connectionErrorPending := error }
  inFlight := s.inFlight ++ topics.map fun t => ⟨type, t, s.client.id⟩

theorem sends_nil (type : RequestType) (error : Bool) :
    s.sends type [] error = ⟨{ s.client with connectionErrorPending := error }, s.inFlight⟩ := by
  rw [sends, map_nil, append_nil]

theorem sends_sends (type : RequestType) (l l' : List Topic) (e e' : Bool) :
    (s.sends type l e).sends type l' e' = s.sends type (l ++ l') e' := by
  simp only [sends, map_append, append_assoc]

theorem pending_sends {s : Session} {type type' : RequestType} {l : List Topic} {e : Bool}
    {t : Topic} :
    (s.sends type l e).Pending type' t ↔ s.Pending type' t ∨ type' = type ∧ t ∈ l := by
  simp [Pending, sends, eq_comm, and_comm]

theorem realSubTopic_spec (sent : Bool) (topic : Topic) (s : Session) :
    ∃ l e, l.Sublist [topic] ∧ (realSubTopic sent topic s).2 = s.sends .subscribe l e := by
  rw [realSubTopic]
  split_ifs
  · exact ⟨[], _, nil_sublist _, (s.sends_nil _ _).symm⟩
  · exact ⟨[topic], _, List.Sublist.refl _, rfl⟩
  · exact ⟨[], true, nil_sublist _, (s.sends_nil _ _).symm⟩

theorem realUnSubTopic_spec (sent : Bool) (topic : Topic) (s : Session) :
    ∃ l e, l.Sublist [topic] ∧ (realUnSubTopic sent topic s).2 = s.sends .unSubscribe l e := by
  rw [realUnSubTopic]
  split_ifs
  · exact ⟨[], _, nil_sublist _, (s.sends_nil _ _).symm⟩
  · exact ⟨[topic], _, List.Sublist.refl _, rfl⟩
  · exact ⟨[], _, nil_sublist _, (s.sends_nil _ _).symm⟩

theorem processAll_spec {real : Bool → Topic → Session → Bool × Session} {type : RequestType}
    (hreal : ∀ sent topic s, ∃ l e, l.Sublist [topic] ∧ (real sent topic s).2 = s.sends type l e)
    (topics : List Topic) (sent : ℕ → Bool) (s : Session) :
    ∃ l e, l.Sublist topics ∧ (processAll real topics sent s).2 = s.sends type l e := by
  induction topics generalizing sent s with
  | nil => exact ⟨[], _, List.Sublist.refl _, (s.sends_nil _ _).symm⟩
  | cons topic topics ih =>
    obtain ⟨l, e, hl, heq⟩ := hreal (sent 0) topic s
    rcases hr : real (sent 0) topic s with ⟨ok, s₁⟩
    obtain rfl : s₁ = s.sends type l e := by rw [← heq, hr]
    rw [processAll, hr]
    cases ok with
    | false => exact ⟨l, true, hl.trans (singleton_sublist.mpr mem_cons_self), rfl⟩
    | true =>
      obtain ⟨l', e', hl', heq'⟩ := ih (fun i => sent (i + 1)) (s.sends type l e)
      exact ⟨l ++ l', e', hl.append hl', heq'.trans (sends_sends ..)⟩

theorem processAllSubAndUnSub_spec (sent sent' : ℕ → Bool) (s : Session) :
    ∃ l e l' e', l.Sublist s.client.toSubcribeTopics.topics ∧
      l'.Sublist s.client.toUnSubcribeTopics.topics ∧
      (processAllSubAndUnSub sent sent' s).2 =
        (s.sends .subscribe l e).sends .unSubscribe l' e' := by
  obtain ⟨l, e, hl, heq⟩ :=
    processAll_spec realSubTopic_spec s.client.toSubcribeTopics.topics sent s
  rcases hr : processAll realSubTopic s.client.toSubcribeTopics.topics sent s with ⟨ok, s₁⟩
  obtain rfl : s₁ = s.sends .subscribe l e := by rw [← heq, hr]
  rw [processAllSubAndUnSub, hr]
  cases ok with
  | false =>
    exact ⟨l, e, [], e, hl, nil_sublist _, ((s.sends .subscribe l e).sends_nil ..).symm⟩
  | true =>
    obtain ⟨l', e', hl', heq'⟩ := processAll_spec realUnSubTopic_spec
      s.client.toUnSubcribeTopics.topics sent' (s.sends .subscribe l e)
    exact ⟨l, e, l', e', hl, hl', heq'⟩

namespace Matched

variable {s : Session}

theorem start (id : ClientId) : Matched (start id) where
  disjoint := nofun
  proper := fun type _ ht => by cases type <;> exact absurd ht TopicSet.notMem_empty
  mem_expected := fun _ _ h => absurd h not_mem_nil
  once := nodup_nil

theorem sends {type : RequestType} {l : List Topic} (hM : Matched s) (hl : l.Nodup)
    (hpending : ∀ t ∈ l, ¬ s.Pending type t) (hmem : ∀ t ∈ l, t ∈ s.expected type) (e : Bool) :
    Matched (s.sends type l e) where
  disjoint := hM.disjoint
  proper := by
    intro type'
    cases type' with
    | subscribe => exact hM.proper .subscribe
    | unSubscribe => exact hM.proper .unSubscribe
  mem_expected := by
    intro type' t ht
    have hmem' : t ∈ s.expected type' := by
      rcases pending_sends.mp ht with hold | ⟨rfl, hnew⟩
      · exact hM.mem_expected type' t hold
      · exact hmem t hnew
    cases type' <;> exact hmem'
  once := by
    rw [Session.sends, map_append, map_map]
    refine nodup_append'.mpr ⟨hM.once, hl.map fun a b heq => (Prod.mk.inj heq).2, ?_⟩
    intro p hold hnew
    obtain ⟨t, ht, rfl⟩ := mem_map.mp hnew
    exact hpending t ht hold

theorem process (hM : Matched s) (sent sent' : ℕ → Bool)
    (hA : ∀ t ∈ s.client.toSubcribeTopics.topics, ¬ s.Pending .subscribe t)
    (hU : ∀ t ∈ s.client.toUnSubcribeTopics.topics,
      t ∈ s.client.subcribedTopics ∧ ¬ s.Pending .unSubscribe t) :
    Matched (processAllSubAndUnSub sent sent' s).2 := by
  obtain ⟨l, e, l', e', hl, hl', heq⟩ := processAllSubAndUnSub_spec sent sent' s
  rw [heq]
  have hfirst : Matched (s.sends .subscribe l e) :=
    hM.sends (s.client.toSubcribeTopics.nodup.sublist hl) (fun t ht => hA t (hl.subset ht))
      (fun t ht => hl.subset ht) e
  refine hfirst.sends (s.client.toUnSubcribeTopics.nodup.sublist hl') (fun t ht => ?_)
    (fun t ht => ?_) e'
  · rw [pending_sends]
    exact fun h => h.elim (hU t (hl'.subset ht)).2 fun h => nomatch h.1
  · exact (hU t (hl'.subset ht)).1

theorem answer {r : Request} {rest : List Request} (hM : Matched s) (hr : s.inFlight = r :: rest)
    (clientId : ClientId) : ∃ c, onAnswer s.client clientId r = .ok c ∧ Matched ⟨c, rest⟩ := by
  have hpending : s.Pending r.type r.topic := by rw [Pending, hr]; exact mem_cons_self
  have hmem := hM.mem_expected _ _ hpending
  obtain ⟨hne, hnul⟩ := hM.proper _ _ hmem
  have honce := hM.once
  rw [hr, map_cons, nodup_cons] at honce
  have hrest (type : RequestType) (t : Topic)
      (ht : (type, t) ∈ rest.map fun r => (r.type, r.topic)) :
      t ∈ s.expected type ∧ (type = r.type → t ≠ r.topic) := by
    refine ⟨hM.mem_expected type t ?_, ?_⟩
    · rw [Pending, hr]
      exact mem_cons_of_mem _ ht
    · rintro rfl rfl
      exact honce.1 ht
  rw [onAnswer, heard_eq hnul, heard_eq hnul]
  cases htype : r.type with
  | subscribe =>
    rw [htype] at hmem hrest
    refine ⟨_, bind_eq_ok.mpr ⟨(), require_eq_ok.mpr hne, bind_eq_ok.mpr ⟨(),
      require_eq_ok.mpr hmem, bind_eq_ok.mpr ⟨(), require_eq_ok.mpr (hM.disjoint _ hmem), rfl⟩⟩⟩,
      ⟨?_, ?_, ?_, honce.2⟩⟩
    · intro t ht
      obtain ⟨hneq, ht⟩ := TopicSet.mem_erase.mp ht
      exact fun h => (TopicSet.mem_insert.mp h).elim hneq (hM.disjoint t ht)
    · intro type t ht
      cases type with
      | subscribe => exact hM.proper .subscribe t (TopicSet.mem_erase.mp ht).2
      | unSubscribe =>
        rcases TopicSet.mem_insert.mp ht with rfl | ht
        · exact ⟨hne, hnul⟩
        · exact hM.proper .unSubscribe t ht
    · intro type t ht
      obtain ⟨hexp, hneq⟩ := hrest type t ht
      cases type with
      | subscribe => exact TopicSet.mem_erase.mpr ⟨hneq rfl, hexp⟩
      | unSubscribe => exact TopicSet.mem_insert.mpr (Or.inr hexp)
  | unSubscribe =>
    rw [htype] at hmem hrest
    refine ⟨_, bind_eq_ok.mpr ⟨(), require_eq_ok.mpr hne, bind_eq_ok.mpr ⟨(),
      require_eq_ok.mpr hmem, rfl⟩⟩, ⟨?_, ?_, ?_, honce.2⟩⟩
    · exact fun t ht h => hM.disjoint t ht (TopicSet.mem_erase.mp h).2
    · intro type t ht
      cases type with
      | subscribe => exact hM.proper .subscribe t ht
      | unSubscribe => exact hM.proper .unSubscribe t (TopicSet.mem_erase.mp ht).2
    · intro type t ht
      obtain ⟨hexp, hneq⟩ := hrest type t ht
      cases type with
      | subscribe => exact hexp
      | unSubscribe => exact TopicSet.mem_erase.mpr ⟨hneq rfl, hexp⟩

theorem subscribeTopic {topic : Topic} (hM : Matched s) (hne : topic ≠ []) (hnul : 0 ∉ topic) :
    Matched { s with client := s.client.subscribeTopic topic } := by
  rw [SubscribeClient.subscribeTopic]
  split_ifs with hmem
  · exact hM
  · refine ⟨?_, ?_, ?_, hM.once⟩
    · intro t ht
      rcases TopicSet.mem_insert.mp ht with rfl | ht
      · exact hmem
      · exact hM.disjoint t ht
    · intro type t ht
      cases type with
      | subscribe =>
        rcases TopicSet.mem_insert.mp ht with rfl | ht
        · exact ⟨hne, hnul⟩
        · exact hM.proper .subscribe t ht
      | unSubscribe => exact hM.proper .unSubscribe t ht
    · intro type t ht
      cases type with
      | subscribe => exact TopicSet.mem_insert.mpr (Or.inr (hM.mem_expected .subscribe t ht))
      | unSubscribe => exact hM.mem_expected .unSubscribe t ht

theorem unSubscribeTopic {topic : Topic} (hM : Matched s) (hidle : ¬ s.Pending .subscribe topic) :
    Matched { s with client := s.client.unSubscribeTopic topic } := by
  rw [SubscribeClient.unSubscribeTopic]
  split_ifs
  · refine ⟨fun t ht => hM.disjoint t (TopicSet.mem_erase.mp ht).2, ?_, ?_, hM.once⟩
    · intro type t ht
      cases type with
      | subscribe => exact hM.proper .subscribe t (TopicSet.mem_erase.mp ht).2
      | unSubscribe => exact hM.proper .unSubscribe t ht
    · intro type t ht
      cases type with
      | subscribe =>
        refine TopicSet.mem_erase.mpr ⟨?_, hM.mem_expected .subscribe t ht⟩
        rintro rfl
        exact hidle ht
      | unSubscribe => exact hM.mem_expected .unSubscribe t ht
  · refine ⟨hM.disjoint, fun type => ?_, fun type t ht => ?_, hM.once⟩
    · cases type with
      | subscribe => exact hM.proper .subscribe
      | unSubscribe => exact hM.proper .unSubscribe
    · cases type with
      | subscribe => exact hM.mem_expected .subscribe t ht
      | unSubscribe => exact hM.mem_expected .unSubscribe t ht
  · exact hM

theorem connectionError (hM : Matched s) (e : Bool) :
    Matched ⟨{ s.client with connectionErrorPending := e }, []⟩ where
  disjoint := hM.disjoint
  proper := by
    intro type
    cases type with
    | subscribe => exact hM.proper .subscribe
    | unSubscribe => exact hM.proper .unSubscribe
  mem_expected := fun _ _ h => absurd h not_mem_nil
  once := nodup_nil

theorem onConnError (hM : Matched s) : Matched ⟨s.client.onConnError, []⟩ where
  disjoint := fun _ _ => TopicSet.notMem_empty
  proper := by
    intro type t ht
    cases type with
    | subscribe =>
      rcases TopicSet.mem_foldl_insert.mp ht with ht | ht
      · exact hM.proper .unSubscribe t (mem_filter.mp ht).1
      · exact hM.proper .subscribe t ht
    | unSubscribe => exact absurd ht TopicSet.notMem_empty
  mem_expected := fun _ _ h => absurd h not_mem_nil
  once := nodup_nil

theorem step {e : ClientEvent} (hM : Matched s) (he : s.Careful e) :
    ∃ s', Session.step s e = .ok s' ∧ Matched s' := by
  cases e with
  | subscribeTopic topic => exact ⟨_, rfl, hM.subscribeTopic he.1 he.2⟩
  | unSubscribeTopic topic => exact ⟨_, rfl, hM.unSubscribeTopic he⟩
  | processAllSubAndUnSub sent sent' =>
    rw [Session.step]
    split_ifs with herror
    · exact ⟨s, rfl, hM⟩
    · obtain ⟨hA, hU⟩ := he (Bool.eq_false_of_not_eq_true herror)
      exact ⟨_, rfl, hM.process sent sent' hA hU⟩
  | answer clientId =>
    rw [Session.step]
    split
    · exact ⟨s, rfl, hM⟩
    · next r rest hr =>
      obtain ⟨c, hanswer, hM'⟩ := hM.answer hr clientId
      exact ⟨⟨c, rest⟩, bind_eq_ok.mpr ⟨c, hanswer, rfl⟩, hM'⟩
  | connectionError => exact ⟨_, rfl, hM.connectionError true⟩
  | reestablishConnection =>
    rw [Session.step]
    split_ifs
    · exact ⟨_, rfl, hM.onConnError.connectionError false⟩
    · exact ⟨s, rfl, hM⟩

end Matched

/-- **No assertion on an answer fails in a run of careful steps**, of any length. -/
theorem answers_expected (id : ClientId) (es : List ClientEvent)
    (hcareful : EachStep step Careful (start id) es) :
    ∃ s, runSteps step (start id) es = .ok s := by
  obtain ⟨s, hrun, -⟩ := exists_runSteps (fun _ _ hM he => Matched.step hM he)
    (Matched.start id) hcareful
  exact ⟨s, hrun⟩

def pass : ClientEvent := .processAllSubAndUnSub (fun _ => true) fun _ => true

theorem answers_expected_reconnect :
    ∃ s, runSteps step (start Broker.noId)
      [.subscribeTopic (ascii "t"), pass, .answer (ascii "1"), .connectionError,
        .reestablishConnection, pass, .answer (ascii "1"), .unSubscribeTopic (ascii "t"), pass,
        .answer []] = .ok s :=
  answers_expected _ _ (by decide +kernel)

theorem unexpected_answer_stops :
    ([[.subscribeTopic (ascii "t"), pass, pass, .answer (ascii "1"), .answer (ascii "1")],
        [.subscribeTopic (ascii "t"), pass, .answer (ascii "1"), .unSubscribeTopic (ascii "t"),
          pass, .answer [], pass, .answer []],
        [.subscribeTopic (ascii "t"), pass, .unSubscribeTopic (ascii "t"),
          .answer (ascii "1")]].map fun es =>
      (runSteps step (start Broker.noId) es).map fun _ => ()) =
      [.error .toSubscribe, .error .subscribed, .error .toSubscribe] := by
  decide +kernel

end Session

end Icm.Messaging
