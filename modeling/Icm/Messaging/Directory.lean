import Icm.Lib.Table
import Icm.Messaging.Registry
import Icm.Messaging.SubscriptionFile

/-!
# Asking which topics have a subscriber

`TopicManager::queryState` answers for each topic whether one of its subscribers is online.
-/

namespace Icm.Messaging

open Icm.Lib Function Broker AList

structure Directory where
  subscribers : AList fun _ : ClientId => Option HandlerPtr
  subscriptionMap : AList fun _ : Topic => List ClientId
  nextAllocateClientId : ℕ
  subscriptionMap1 : AList fun _ : Topic => List HandlerPtr
  subscriptionMap2 : HandlerPtr → List Topic
  known : ∀ topic, ∀ id ∈ (subscriptionMap.lookup topic).getD [], id ≠ [] ∧ id ∈ subscribers

structure TopicState where
  topic : Topic
  s : Bool
  deriving DecidableEq

namespace Directory

variable (d : Directory)

def subscribersOf (topic : Topic) : List ClientId := (d.subscriptionMap.lookup topic).getD []

def handlerOf (id : ClientId) : Option HandlerPtr := (d.subscribers.lookup id).getD none

def handlersOf (topic : Topic) : List HandlerPtr := (d.subscriptionMap1.lookup topic).getD []

def start (nextAllocateClientId : ℕ) : Directory where
  subscribers := ∅
  subscriptionMap := ∅
  nextAllocateClientId := nextAllocateClientId
  subscriptionMap1 := ∅
  subscriptionMap2 := fun _ => []
  known := fun _ _ h => absurd h List.not_mem_nil

def addSubscription_ (topic : Topic) (id : ClientId) (h : Option HandlerPtr) :
    Except Assertion Directory :=
  if topic = [] then .error .subscriptionTopic
  else if hid : id = [] then .error .subscriptionId
  else .ok { d with
    subscribers := d.subscribers.insert id h
    subscriptionMap := d.subscriptionMap.insert topic ((d.subscribersOf topic).insert id)
    known := by
      intro topic' id' hid'
      rw [mem_insert]
      by_cases ht : topic' = topic
      · rw [ht, lookup_insert, Option.getD_some, List.mem_insert_iff] at hid'
        rcases hid' with rfl | hid'
        · exact ⟨hid, Or.inl rfl⟩
        · exact (d.known topic id' hid').imp_right Or.inr
      · rw [lookup_insert_ne ht] at hid'
        exact (d.known topic' id' hid').imp_right Or.inr }

def removeSubscription_ (topic : Topic) (id : ClientId) : Directory :=
  { d with
    subscriptionMap := d.subscriptionMap.insert topic ((d.subscribersOf topic).erase id)
    known := by
      intro topic' id' hid'
      by_cases ht : topic' = topic
      · rw [ht, lookup_insert, Option.getD_some] at hid'
        exact d.known topic id' (List.mem_of_mem_erase hid')
      · rw [lookup_insert_ne ht] at hid'
        exact d.known topic' id' hid' }

def onHandlerDestroyed_ (id : ClientId) : Directory :=
  { d with
    subscribers := d.subscribers.insert id none
    known := fun topic id' hid' => (d.known topic id' hid').imp_right
      fun hmem => (mem_insert _).mpr (Or.inr hmem) }

def getSubscribersOfTopic_ (topic : Topic) : List ClientId × Directory :=
  ((subscript d.subscriptionMap topic []).1,
    { d with
      subscriptionMap := (subscript d.subscriptionMap topic []).2
      known := fun topic' id hid => d.known topic' id (by rwa [getD_lookup_subscript] at hid) })

def getHandlerOfClient_ (id : ClientId) : Except Assertion (Option HandlerPtr × Directory) := do
  require .clientId (id ≠ [])
  return ((subscript d.subscribers id none).1,
    { d with
      subscribers := (subscript d.subscribers id none).2
      known := fun topic id' hid' => (d.known topic id' hid').imp_right
        fun hmem => mem_subscript.mpr (Or.inr hmem) })

def addSubscription (topic : Topic) (h : HandlerPtr) : Except Assertion Directory := do
  require .subscriptionTopic (topic ≠ [])
  return { d with
    subscriptionMap1 := d.subscriptionMap1.insert topic ((d.handlersOf topic).insert h)
    subscriptionMap2 := update d.subscriptionMap2 h
      ((d.subscriptionMap2 h).insert topic) }

def removeSubscription (topic : Topic) (h : HandlerPtr) : Directory :=
  { d with subscriptionMap1 := d.subscriptionMap1.insert topic ((d.handlersOf topic).erase h) }

def onHandlerDestroyed (h : HandlerPtr) : Directory :=
  let removed := (d.subscriptionMap2 h).foldl (fun d topic => d.removeSubscription topic h) d
  { removed with subscriptionMap2 := update removed.subscriptionMap2 h [] }

def allocateClientId_ : ℕ × Directory :=
  (d.nextAllocateClientId, { d with nextAllocateClientId := d.nextAllocateClientId + 1 })

def toManager : TopicManager where
  subscribers := d.handlerOf
  subscriptionMap := d.subscriptionMap
  nextAllocateClientId := d.nextAllocateClientId
  pubs_ := .empty
  subscriptionMap1 := d.handlersOf
  subscriptionMap2 := d.subscriptionMap2
  pubs := .empty

def savedText : List UInt8 := d.toManager.savedText

theorem lookup_saved (tm : TopicManager) (topic : Topic) :
    tm.saveSubscriptionInfoToDisk_.subscriptionMap.lookup topic =
      ((tm.subscriptionMap.erase []).lookup topic).map fun ids => ids.erase [] :=
  List.dlookup_map₂ (f := fun _ (ids : List ClientId) => ids.erase []) topic

def saveSubscriptionInfoToDisk_ : Directory :=
  { d with
    subscriptionMap := d.toManager.saveSubscriptionInfoToDisk_.subscriptionMap
    known := by
      intro topic id hid
      rw [lookup_saved] at hid
      by_cases htopic : topic = []
      · subst htopic
        rw [lookup_erase] at hid
        exact absurd hid List.not_mem_nil
      · rw [lookup_erase_ne htopic] at hid
        refine d.known topic id ?_
        change id ∈ ((d.subscriptionMap.lookup topic).map fun ids => ids.erase []).getD [] at hid
        cases hids : d.subscriptionMap.lookup topic with
        | none =>
          rw [hids] at hid
          exact hid
        | some ids =>
          rw [hids] at hid
          exact List.mem_of_mem_erase hid }

variable (cfg : Config) (active : HandlerPtr → Bool)

def anyOnline_ : List ClientId → Directory → Except Assertion (Bool × Directory)
  | [], d => .ok (false, d)
  | id :: ids, d => do
    let (handler, d) ← d.getHandlerOfClient_ id
    if handler.any active then return (true, d) else anyOnline_ ids d

def isClientOnline_ (topic : Topic) : Except Assertion (Bool × Directory) :=
  let (ids, d) := d.getSubscribersOfTopic_ topic
  if ids = [] then .ok (false, d) else anyOnline_ active ids d

def isClientOnline (topic : Topic) : Bool × Directory :=
  ((subscript d.subscriptionMap1 topic []).1.any active,
    { d with subscriptionMap1 := (subscript d.subscriptionMap1 topic []).2 })

def queryTopic (topic : Topic) : Except Assertion (Bool × Directory) :=
  if cfg.enableBuffering then d.isClientOnline_ active topic
  else .ok (d.isClientOnline active topic)

def queryState : List Topic → Directory → Except Assertion (List TopicState × Directory)
  | [], d => .ok ([], d)
  | topic :: topics, d => do
    let (s, d) ← d.queryTopic cfg active topic
    let (result, d) ← queryState topics d
    return (⟨topic, s⟩ :: result, d)

def online (topic : Topic) : Bool :=
  if cfg.enableBuffering then (d.subscribersOf topic).any fun id => (d.handlerOf id).any active
  else (d.handlersOf topic).any active

def HasTopic (topic : Topic) : Prop :=
  if cfg.enableBuffering then topic ∈ d.subscriptionMap else topic ∈ d.subscriptionMap1

def enterTopic (cfg : Config) (d : Directory) (topic : Topic) : Directory :=
  if cfg.enableBuffering then (d.getSubscribersOfTopic_ topic).2
  else { d with subscriptionMap1 := (subscript d.subscriptionMap1 topic []).2 }

variable {cfg active} {d}

theorem getHandlerOfClient_eq {id : ClientId} (hid : id ≠ []) (hmem : id ∈ d.subscribers) :
    d.getHandlerOfClient_ id = .ok (d.handlerOf id, d) := by
  rw [getHandlerOfClient_, require_bind, if_pos hid, subscript_fst]
  refine congrArg Except.ok (Prod.ext rfl ?_)
  obtain ⟨subscribers, _, _, _, _, _⟩ := d
  simp only [mk.injEq, and_true]
  exact subscript_of_mem hmem

theorem anyOnline_eq {ids : List ClientId} (hids : ∀ id ∈ ids, id ≠ [] ∧ id ∈ d.subscribers) :
    anyOnline_ active ids d = .ok (ids.any fun id => (d.handlerOf id).any active, d) := by
  induction ids with
  | nil => rfl
  | cons id ids ih =>
    obtain ⟨⟨hid, hmem⟩, hids⟩ := List.forall_mem_cons.mp hids
    rw [anyOnline_, getHandlerOfClient_eq hid hmem, List.any_cons]
    change (if (d.handlerOf id).any active = true then _ else _) = _
    split_ifs with hactive
    · rw [hactive, Bool.true_or]
      rfl
    · rw [ih hids, eq_false_of_ne_true hactive, Bool.false_or]

theorem queryTopic_eq (topic : Topic) : d.queryTopic cfg active topic =
    .ok (d.online cfg active topic, enterTopic cfg d topic) := by
  rw [queryTopic, online, enterTopic]
  split_ifs
  · have hsame : (d.getSubscribersOfTopic_ topic).1 = d.subscribersOf topic := subscript_fst
    rw [isClientOnline_]
    dsimp only
    rw [hsame]
    split_ifs with hnil
    · rw [hnil]
      rfl
    · exact anyOnline_eq (d := (d.getSubscribersOfTopic_ topic).2) (d.known topic)
  · rw [isClientOnline, subscript_fst]
    rfl

theorem online_enterTopic (topic topic' : Topic) :
    (enterTopic cfg d topic).online cfg active topic' = d.online cfg active topic' := by
  rw [enterTopic, online, online]
  split_ifs
  · rw [show (d.getSubscribersOfTopic_ topic).2.subscribersOf topic' = d.subscribersOf topic' from
      getD_lookup_subscript]
    rfl
  · exact congrArg (List.any · active) getD_lookup_subscript

theorem queryState_eq (topics : List Topic) (d : Directory) : queryState cfg active topics d =
    .ok (topics.map fun topic => ⟨topic, d.online cfg active topic⟩,
      topics.foldl (enterTopic cfg) d) := by
  induction topics generalizing d with
  | nil => rfl
  | cons topic topics ih =>
    have hrest : (topics.map fun topic' =>
        (⟨topic', (enterTopic cfg d topic).online cfg active topic'⟩ : TopicState)) =
        topics.map fun topic' => ⟨topic', d.online cfg active topic'⟩ := by
      simp only [online_enterTopic]
    rw [queryState, queryTopic_eq]
    change (queryState cfg active topics (enterTopic cfg d topic) >>= _) = _
    rw [ih, hrest]
    rfl

theorem enterTopic_of_hasTopic {topic : Topic} (h : d.HasTopic cfg topic) :
    enterTopic cfg d topic = d := by
  obtain ⟨subscribers, subscriptionMap, _, subscriptionMap1, _, _⟩ := d
  rw [HasTopic] at h
  rw [enterTopic]
  split_ifs at h ⊢
  · simp only [getSubscribersOfTopic_, mk.injEq, and_true, true_and]
    exact subscript_of_mem h
  · simp only [mk.injEq, and_true, true_and]
    exact subscript_of_mem h

theorem hasTopic_enterTopic {topic topic' : Topic} :
    (enterTopic cfg d topic).HasTopic cfg topic' ↔ topic' = topic ∨ d.HasTopic cfg topic' := by
  rw [HasTopic, HasTopic, enterTopic]
  split_ifs
  · exact mem_subscript
  · exact mem_subscript

theorem hasTopic_foldl {topics : List Topic} {topic : Topic} :
    (topics.foldl (enterTopic cfg) d).HasTopic cfg topic ↔
      topic ∈ topics ∨ d.HasTopic cfg topic := by
  induction topics generalizing d with
  | nil => simp
  | cons t topics ih =>
    rw [List.foldl_cons, ih, hasTopic_enterTopic, List.mem_cons, or_left_comm, or_assoc]

theorem foldl_enterTopic {topics : List Topic} (h : ∀ topic ∈ topics, d.HasTopic cfg topic) :
    topics.foldl (enterTopic cfg) d = d := by
  induction topics with
  | nil => rfl
  | cons topic topics ih =>
    obtain ⟨htopic, htopics⟩ := List.forall_mem_cons.mp h
    rw [List.foldl_cons, enterTopic_of_hasTopic htopic, ih htopics]

/-- **A query changes nothing exactly if it asks for topics that are in the table**: then, and only
then, the tables of the subscriptions and of the handlers and the file of a later save are as before
and the answers are right. -/
theorem queryState_frame_iff (cfg : Config) (active : HandlerPtr → Bool) (topics : List Topic)
    (d : Directory) :
    (∃ result d', queryState cfg active topics d = .ok (result, d') ∧
      result = (topics.map fun topic => ⟨topic, d.online cfg active topic⟩) ∧
      d'.subscriptionMap = d.subscriptionMap ∧ d'.subscriptionMap1 = d.subscriptionMap1 ∧
      d'.subscriptionMap2 = d.subscriptionMap2 ∧ d'.subscribers = d.subscribers ∧
      d'.savedText = d.savedText) ↔
    ∀ topic ∈ topics, d.HasTopic cfg topic := by
  rw [queryState_eq]
  constructor
  · rintro ⟨result, d', hrun, -, hmap, hmap1, -, -, -⟩ topic htopic
    cases hrun
    have hentered : (topics.foldl (enterTopic cfg) d).HasTopic cfg topic :=
      hasTopic_foldl.mpr (Or.inl htopic)
    rw [HasTopic] at hentered ⊢
    rwa [hmap, hmap1] at hentered
  · intro h
    refine ⟨_, _, rfl, rfl, ?_⟩
    rw [foldl_enterTopic h]
    exact ⟨rfl, rfl, rfl, rfl, rfl⟩

theorem queryState_enters : ∃ d', queryState Traced.bufferingConfig (fun _ => false) [ascii "t"]
      (start 1) = .ok ([⟨ascii "t", false⟩], d') ∧
    (start 1).savedText = ascii "nextAllocateClientId: 1 " ∧
    d'.savedText = ascii "nextAllocateClientId: 1 t 0 " := by
  obtain ⟨⟨result, d'⟩, hrun, hstate⟩ := map_eq_ok.mp (by decide +kernel :
    (queryState Traced.bufferingConfig (fun _ => false) [ascii "t"] (start 1)).map
      (fun r => (r.1, r.2.savedText)) =
    .ok ([⟨ascii "t", false⟩], ascii "nextAllocateClientId: 1 t 0 "))
  obtain ⟨rfl, htext⟩ := Prod.mk.inj hstate
  exact ⟨d', hrun, by decide +kernel, htext⟩

structure Shows (d : Directory) (tm : TopicManager) : Prop where
  subscribers : tm.subscribers = d.handlerOf
  lookup : ∀ topic, tm.subscriptionMap.lookup topic = d.subscriptionMap.lookup topic
  nextAllocateClientId : tm.nextAllocateClientId = d.nextAllocateClientId
  subscriptionMap1 : tm.subscriptionMap1 = d.handlersOf
  subscriptionMap2 : tm.subscriptionMap2 = d.subscriptionMap2

theorem getD_lookup_insert {κ β : Type} [DecidableEq κ] (m : AList fun _ : κ => β) (k : κ)
    (v default : β) : (fun k' => ((m.insert k v).lookup k').getD default) =
      update (fun k' => (m.lookup k').getD default) k v := by
  funext k'
  by_cases hk : k' = k
  · rw [hk, lookup_insert, update_self]
    rfl
  · rw [lookup_insert_ne hk, update_of_ne hk]

namespace Shows

variable {tm tm' : TopicManager} {topic : Topic} {id : ClientId} {h : HandlerPtr}

section

variable (hd : d.Shows tm)
include hd

theorem lookup_insert (ids : List ClientId) (topic' : Topic) :
    (tm.subscriptionMap.insert topic ids).lookup topic' =
      (d.subscriptionMap.insert topic ids).lookup topic' := by
  by_cases ht : topic' = topic
  · rw [ht, AList.lookup_insert, AList.lookup_insert]
  · rw [AList.lookup_insert_ne ht, AList.lookup_insert_ne ht, hd.lookup]

theorem subscribersOf : tm.subscribersOf topic = d.subscribersOf topic := by
  rw [TopicManager.subscribersOf, hd.lookup]
  rfl

theorem addSubscription_ (hrun : tm.addSubscription_ topic id h = .ok tm') :
    ∃ d', d.addSubscription_ topic id (some h) = .ok d' ∧ d'.Shows tm' := by
  obtain ⟨⟨⟩, htopic, hrun⟩ := bind_eq_ok.mp hrun
  obtain ⟨⟨⟩, hid, hrun⟩ := bind_eq_ok.mp hrun
  cases hrun
  refine ⟨_, (if_neg (require_eq_ok.mp htopic)).trans (dif_neg (require_eq_ok.mp hid)), ?_, ?_,
    hd.nextAllocateClientId, hd.subscriptionMap1, hd.subscriptionMap2⟩
  · change update tm.subscribers id (some h) = _
    rw [hd.subscribers]
    exact (getD_lookup_insert d.subscribers id (some h) none).symm
  · intro topic'
    change (tm.subscriptionMap.insert topic ((tm.subscribersOf topic).insert id)).lookup topic' = _
    rw [hd.subscribersOf]
    exact hd.lookup_insert _ topic'

theorem removeSubscription_ :
    (d.removeSubscription_ topic id).Shows (tm.removeSubscription_ topic id) where
  subscribers := hd.subscribers
  lookup := fun topic' => by
    rw [TopicManager.removeSubscription_, hd.subscribersOf]
    exact hd.lookup_insert _ topic'
  nextAllocateClientId := hd.nextAllocateClientId
  subscriptionMap1 := hd.subscriptionMap1
  subscriptionMap2 := hd.subscriptionMap2

theorem saveSubscriptionInfoToDisk_ :
    d.saveSubscriptionInfoToDisk_.Shows tm.saveSubscriptionInfoToDisk_ where
  subscribers := hd.subscribers
  lookup := fun topic' => by
    refine (lookup_saved tm topic').trans (Eq.trans ?_ (lookup_saved d.toManager topic').symm)
    by_cases ht : topic' = []
    · rw [ht, lookup_erase, lookup_erase]
    · rw [lookup_erase_ne ht, lookup_erase_ne ht, hd.lookup]
      rfl
  nextAllocateClientId := hd.nextAllocateClientId
  subscriptionMap1 := hd.subscriptionMap1
  subscriptionMap2 := hd.subscriptionMap2

theorem onHandlerDestroyed_ :
    (d.onHandlerDestroyed_ id).Shows (tm.onHandlerDestroyed_ id) where
  subscribers := by
    rw [TopicManager.onHandlerDestroyed_, hd.subscribers]
    exact (getD_lookup_insert d.subscribers id none none).symm
  lookup := hd.lookup
  nextAllocateClientId := hd.nextAllocateClientId
  subscriptionMap1 := hd.subscriptionMap1
  subscriptionMap2 := hd.subscriptionMap2

theorem addSubscription (hrun : tm.addSubscription topic h = .ok tm') :
    ∃ d', d.addSubscription topic h = .ok d' ∧ d'.Shows tm' := by
  obtain ⟨⟨⟩, htopic, hrun⟩ := bind_eq_ok.mp hrun
  cases hrun
  refine ⟨_, bind_eq_ok.mpr ⟨(), htopic, rfl⟩, hd.subscribers, hd.lookup, hd.nextAllocateClientId,
    ?_, ?_⟩
  · change update tm.subscriptionMap1 topic ((tm.subscriptionMap1 topic).insert h) = _
    rw [hd.subscriptionMap1]
    exact (getD_lookup_insert d.subscriptionMap1 topic _ []).symm
  · change update tm.subscriptionMap2 h ((tm.subscriptionMap2 h).insert topic) = _
    rw [hd.subscriptionMap2]

theorem removeSubscription :
    (d.removeSubscription topic h).Shows (tm.removeSubscription topic h) where
  subscribers := hd.subscribers
  lookup := hd.lookup
  nextAllocateClientId := hd.nextAllocateClientId
  subscriptionMap1 := by
    rw [TopicManager.removeSubscription, hd.subscriptionMap1]
    exact (getD_lookup_insert d.subscriptionMap1 topic _ []).symm
  subscriptionMap2 := hd.subscriptionMap2

theorem onHandlerDestroyed :
    (d.onHandlerDestroyed h).Shows (tm.onHandlerDestroyed h) := by
  have hfold (topics : List Topic) {d : Directory} {tm : TopicManager} (hd : d.Shows tm) :
      (topics.foldl (fun d topic => d.removeSubscription topic h) d).Shows
        (topics.foldl (fun tm topic => tm.removeSubscription topic h) tm) := by
    induction topics generalizing d tm with
    | nil => exact hd
    | cons topic topics ih => exact ih hd.removeSubscription
  have hremoved := hfold (d.subscriptionMap2 h) hd
  rw [TopicManager.onHandlerDestroyed, hd.subscriptionMap2]
  exact ⟨hremoved.subscribers, hremoved.lookup, hremoved.nextAllocateClientId,
    hremoved.subscriptionMap1, by rw [hremoved.subscriptionMap2]; rfl⟩

end

theorem reload {info info' : SubscriptionInfo} {n : ℕ}
    (hd : d.Shows (Broker.start info.subscriptionMap n).manager)
    (hrun : info.addSubscription_ topic id = .ok info') :
    ∃ d', d.addSubscription_ topic id none = .ok d' ∧
      d'.Shows (Broker.start info'.subscriptionMap n).manager := by
  obtain ⟨⟨⟩, htopic, hrun⟩ := bind_eq_ok.mp hrun
  obtain ⟨⟨⟩, hid, hrun⟩ := bind_eq_ok.mp hrun
  cases hrun
  refine ⟨_, (if_neg (require_eq_ok.mp htopic)).trans (dif_neg (require_eq_ok.mp hid)), ?_, ?_,
    hd.nextAllocateClientId, hd.subscriptionMap1, hd.subscriptionMap2⟩
  · refine Eq.trans ?_ (getD_lookup_insert d.subscribers id none none).symm
    have hnone : d.handlerOf = fun _ => none := hd.subscribers.symm
    change _ = update d.handlerOf id none
    rw [hnone, update_eq_self_iff.mpr rfl]
    rfl
  · intro topic'
    have hsame : info.subscribersOf topic = d.subscribersOf topic := hd.subscribersOf
    change
      (info.subscriptionMap.insert topic ((info.subscribersOf topic).insert id)).lookup topic' = _
    rw [hsame]
    exact hd.lookup_insert _ topic'

theorem congr (hd : d.Shows tm) (hsubscribers : tm'.subscribers = tm.subscribers)
    (hmap : tm'.subscriptionMap = tm.subscriptionMap)
    (hnext : tm'.nextAllocateClientId = tm.nextAllocateClientId)
    (hmap1 : tm'.subscriptionMap1 = tm.subscriptionMap1)
    (hmap2 : tm'.subscriptionMap2 = tm.subscriptionMap2) : d.Shows tm' where
  subscribers := hsubscribers.trans hd.subscribers
  lookup := by
    rw [hmap]
    exact hd.lookup
  nextAllocateClientId := hnext.trans hd.nextAllocateClientId
  subscriptionMap1 := hmap1.trans hd.subscriptionMap1
  subscriptionMap2 := hmap2.trans hd.subscriptionMap2

theorem getSubscribersOfTopic_ (hd : d.Shows tm) :
    (d.getSubscribersOfTopic_ topic).2.Shows
      { tm with subscriptionMap := tm.subscriptionMap.insert topic (tm.subscribersOf topic) } where
  subscribers := hd.subscribers
  lookup := fun topic' => by
    change (tm.subscriptionMap.insert topic (tm.subscribersOf topic)).lookup topic' =
      (subscript d.subscriptionMap topic []).2.lookup topic'
    rw [subscript, TopicManager.subscribersOf, hd.lookup topic]
    cases hids : d.subscriptionMap.lookup topic with
    | none => exact hd.lookup_insert [] topic'
    | some ids =>
      by_cases ht : topic' = topic
      · rw [ht, AList.lookup_insert, hids]
        rfl
      · rw [AList.lookup_insert_ne ht, hd.lookup]
  nextAllocateClientId := hd.nextAllocateClientId
  subscriptionMap1 := hd.subscriptionMap1
  subscriptionMap2 := hd.subscriptionMap2

section Broker

variable {b b' : Broker} {env : Answers} {sh : SubscriberHandler} {msg : Msg} {ok : Bool}

theorem closeSubscriber (hd : d.Shows b.manager)
    (hrun : closeSubscriber cfg h (ok, b) = .ok b') : ∃ d' : Directory, d'.Shows b'.manager := by
  rcases manager_of_closeSubscriber hrun with hmanager | ⟨id, hmanager⟩ | hmanager
  · exact ⟨d, hmanager ▸ hd⟩
  · exact ⟨_, hmanager ▸ hd.onHandlerDestroyed_⟩
  · exact ⟨_, hmanager ▸ hd.onHandlerDestroyed⟩

theorem subscribe (hd : d.Shows tm) (hrun : subscribe cfg tm h sh msg = .ok (id, tm')) :
    ∃ d' : Directory, d'.Shows tm' := by
  rw [Broker.subscribe] at hrun
  split_ifs at hrun
  · obtain ⟨⟨id, tm₁⟩, hchoose, hrun⟩ := bind_eq_ok.mp hrun
    obtain ⟨tm₂, hadd, hrun⟩ := bind_eq_ok.mp hrun
    cases hrun
    obtain ⟨n, rfl⟩ := chooseId_eq hchoose
    have hd₁ : ({ d with nextAllocateClientId := n } : Directory).Shows
        { tm with nextAllocateClientId := n } :=
      ⟨hd.subscribers, hd.lookup, rfl, hd.subscriptionMap1, hd.subscriptionMap2⟩
    obtain ⟨d₂, -, hd₂⟩ := hd₁.addSubscription_ hadd
    exact ⟨_, hd₂.saveSubscriptionInfoToDisk_⟩
  · obtain ⟨tm₁, hadd, hrun⟩ := bind_eq_ok.mp hrun
    cases hrun
    obtain ⟨d₁, -, hd₁⟩ := hd.addSubscription hadd
    exact ⟨d₁, hd₁⟩

theorem onSubscriberMessage (hd : d.Shows b.manager)
    (hrun : onSubscriberMessage cfg env b h sh msg = .ok (ok, b')) :
    ∃ d' : Directory, d'.Shows b'.manager := by
  rcases onSubscriberMessage_cases hrun with ⟨-, hrun⟩ | ⟨-, rfl⟩ | ⟨-, hrun⟩
  · obtain ⟨⟨id, tm⟩, htm, hrun⟩ := bind_eq_ok.mp hrun
    obtain ⟨⟨ok', bytes⟩, -, hrun⟩ := bind_eq_ok.mp hrun
    cases hrun
    obtain ⟨d', hd'⟩ := hd.subscribe htm
    refine ⟨d', ?_⟩
    split_ifs
    · rw [manager_registerWriteMask]
      exact hd'
    · exact hd'
  · exact ⟨d, hd⟩
  · obtain ⟨-, -, hrun⟩ := bind_eq_ok.mp hrun
    obtain ⟨⟨ok', bytes⟩, -, hrun⟩ := bind_eq_ok.mp hrun
    cases hrun
    simp only [unSubscribe]
    split_ifs
    · exact ⟨_, hd.removeSubscription_.saveSubscriptionInfoToDisk_⟩
    · exact ⟨_, hd.removeSubscription⟩

theorem onPublisherMessage (hd : d.Shows b.manager) {ptr : MsgPtr}
    (hrun : onPublisherMessage cfg env b ptr msg = .ok (ok, b')) :
    ∃ d' : Directory, d'.Shows b'.manager := by
  rcases onPublisherMessage_cases hrun with ⟨-, rfl⟩ | ⟨-, -, ⟨-, hadd⟩ | ⟨-, rfl⟩⟩
  · exact ⟨d, hd⟩
  · obtain ⟨pubs_, hmanager⟩ := manager_of_addMessageTo_ hadd
    refine ⟨(d.getSubscribersOfTopic_ msg.topic).2, ?_⟩
    rw [hmanager]
    exact hd.getSubscribersOfTopic_.congr rfl rfl rfl rfl rfl
  · obtain ⟨pubs, hmanager⟩ := manager_addMessageTo cfg env.now _ _ _
    refine ⟨d, ?_⟩
    rw [addMessage, hmanager]
    exact hd.congr rfl rfl rfl rfl rfl

theorem step {u : Upcall} (hd : d.Shows b.manager) (hrun : step cfg b u = .ok b') :
    ∃ d' : Directory, d'.Shows b'.manager := by
  cases dispatched_of_step hrun with
  | ignored => exact ⟨d, hd⟩
  | acceptSubscriber => exact ⟨d, hd⟩
  | acceptPublisher => exact ⟨d, hd⟩
  | subscriberReadable hsh hinput hclose =>
    rcases subscriberInput_cases hinput with ⟨result, msg, tmpMsg, -, -, rfl⟩ | ⟨msg, -, hmsg⟩
    · exact closeSubscriber (by exact hd) hclose
    · obtain ⟨d₁, hd₁⟩ := onSubscriberMessage (d := d) (by exact hd) hmsg
      exact hd₁.closeSubscriber hclose
  | subscriberWritable hsh hmask houtput hclose =>
    obtain ⟨messages, -, houtput⟩ := bind_eq_ok.mp houtput
    obtain ⟨⟨ok₁, b₁⟩, hsend, houtput⟩ := bind_eq_ok.mp houtput
    cases houtput
    obtain ⟨pubs_, pubs, sent, rfl⟩ := sendMessages_eq hsend
    refine closeSubscriber (d := d) ?_ hclose
    exact hd.congr rfl rfl rfl rfl rfl
  | publisherReadable hph hinput hclose =>
    rw [manager_of_closePublisher hclose]
    rcases publisherInput_cases hinput with ⟨result, msg, current, -, -, rfl⟩ | ⟨msg, -, hmsg⟩
    · exact ⟨d, hd⟩
    · exact onPublisherMessage (d := d) (by exact hd) hmsg

theorem run {us : List Upcall} (hd : d.Shows b.manager)
    (hrun : runSteps (Broker.step cfg) b us = .ok b') : ∃ d' : Directory, d'.Shows b'.manager :=
  runSteps_invariant (I := fun b => ∃ d : Directory, d.Shows b.manager)
    (fun _ _ _ ⟨_, hd⟩ _ hstep => hd.step hstep) ⟨d, hd⟩ (eachStep_true b us) hrun

end Broker

end Shows

theorem shows_start (n : ℕ) : (start n).Shows (Broker.start ∅ n).manager :=
  ⟨rfl, fun _ => rfl, rfl, rfl, rfl⟩

end Directory

end Icm.Messaging
