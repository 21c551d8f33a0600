import Icm.Messaging.Receive

/-!
# The topic manager

Class `TopicManager` of `msg/TopicManager.{h,cpp}`: who subscribes to which topic, and the messages
that are still to be sent to each subscriber.
-/

namespace Icm.Messaging

open Icm.Lib Function

abbrev MsgPtr := ℕ

abbrev HandlerPtr := ℕ

abbrev ClientId := List UInt8

abbrev Topic := List UInt8

/-- A message that a publisher sent: where it lies, and how many were received before it, which no
function of the source knows. -/
structure Event where
  ptr : MsgPtr
  msg : Msg
  serial : ℕ

def insertEvent (e : Event) : List Event → List Event
  | [] => [e]
  | a :: events =>
    if e.ptr < a.ptr then e :: a :: events
    else if e.ptr = a.ptr then a :: events
    else a :: insertEvent e events

def eraseEvent (m : MsgPtr) (events : List Event) : List Event :=
  events.filter fun e => e.ptr ≠ m

def maxBufferSize : ℕ := 100 * 1000

structure PubMaps (κ : Type) where
  messages : κ → List Event
  clients : AList fun _ : MsgPtr => List κ

namespace PubMaps

variable {κ : Type} [DecidableEq κ]

def empty : PubMaps κ := ⟨fun _ => [], ∅⟩

def clientsOf (p : PubMaps κ) (m : MsgPtr) : List κ := (p.clients.lookup m).getD []

def insert (p : PubMaps κ) (e : Event) (k : κ) : PubMaps κ where
  messages := update p.messages k (insertEvent e (p.messages k))
  clients := p.clients.insert e.ptr ((p.clientsOf e.ptr).insert k)

def onMessageSent (p : PubMaps κ) (m : MsgPtr) (k : κ) : PubMaps κ :=
  let rest := (p.clientsOf m).erase k
  { messages := update p.messages k (eraseEvent m (p.messages k))
    clients := if rest = [] then p.clients.erase m else p.clients.insert m rest }

def checkBufferSize (p : PubMaps κ) : PubMaps κ :=
  if maxBufferSize ≤ p.clients.keys.length then empty else p

variable (p : PubMaps κ) (e : Event) (m : MsgPtr) {k k' : κ}

theorem insert_messages_self : (p.insert e k).messages k = insertEvent e (p.messages k) :=
  update_self ..

theorem insert_messages_of_ne (h : k' ≠ k) : (p.insert e k).messages k' = p.messages k' :=
  update_of_ne h ..

theorem onMessageSent_messages_self :
    (p.onMessageSent m k).messages k = eraseEvent m (p.messages k) :=
  update_self ..

theorem onMessageSent_messages_of_ne (h : k' ≠ k) :
    (p.onMessageSent m k).messages k' = p.messages k' :=
  update_of_ne h ..

end PubMaps

structure TopicManager where
  subscribers : ClientId → Option HandlerPtr
  subscriptionMap : AList fun _ : Topic => List ClientId
  nextAllocateClientId : ℕ
  pubs_ : PubMaps ClientId
  subscriptionMap1 : Topic → List HandlerPtr
  subscriptionMap2 : HandlerPtr → List Topic
  pubs : PubMaps HandlerPtr

namespace TopicManager

variable (tm : TopicManager)

def subscribersOf (topic : Topic) : List ClientId := (tm.subscriptionMap.lookup topic).getD []

def addSubscription_ (topic : Topic) (id : ClientId) (h : HandlerPtr) :
    Except Assertion TopicManager := do
  require .subscriptionTopic (topic ≠ [])
  require .subscriptionId (id ≠ [])
  return { tm with
    subscribers := update tm.subscribers id (some h)
    subscriptionMap := tm.subscriptionMap.insert topic ((tm.subscribersOf topic).insert id) }

def removeSubscription_ (topic : Topic) (id : ClientId) : TopicManager :=
  { tm with subscriptionMap := tm.subscriptionMap.insert topic ((tm.subscribersOf topic).erase id) }

def onHandlerDestroyed_ (id : ClientId) : TopicManager :=
  { tm with subscribers := update tm.subscribers id none }

def saveSubscriptionInfoToDisk_ : TopicManager :=
  { tm with
    subscriptionMap :=
      ⟨(tm.subscriptionMap.erase []).entries.map fun e => ⟨e.1, e.2.erase []⟩, by
        have h := (tm.subscriptionMap.erase []).nodupKeys
        rw [List.NodupKeys, List.keys, List.map_map] at *
        exact h⟩ }

def allocateClientId_ : ℕ × TopicManager :=
  (tm.nextAllocateClientId, { tm with nextAllocateClientId := tm.nextAllocateClientId + 1 })

def getHandlerOfClient_ (id : ClientId) : Except Assertion (Option HandlerPtr) := do
  require .clientId (id ≠ [])
  return tm.subscribers id

def getClientMessages_ (id : ClientId) : Except Assertion (List Event) := do
  require .clientId (id ≠ [])
  return tm.pubs_.messages id

def addSubscription (topic : Topic) (h : HandlerPtr) : Except Assertion TopicManager := do
  require .subscriptionTopic (topic ≠ [])
  return { tm with
    subscriptionMap1 := update tm.subscriptionMap1 topic
      ((tm.subscriptionMap1 topic).insert h)
    subscriptionMap2 := update tm.subscriptionMap2 h
      ((tm.subscriptionMap2 h).insert topic) }

def removeSubscription (topic : Topic) (h : HandlerPtr) : TopicManager :=
  { tm with
    subscriptionMap1 := update tm.subscriptionMap1 topic
      ((tm.subscriptionMap1 topic).erase h) }

def onHandlerDestroyed (h : HandlerPtr) : TopicManager :=
  let removed := (tm.subscriptionMap2 h).foldl (fun tm topic => tm.removeSubscription topic h) tm
  { removed with subscriptionMap2 := update removed.subscriptionMap2 h [] }

theorem onHandlerDestroyed_eq (h : HandlerPtr) : ∃ map₁ map₂, tm.onHandlerDestroyed h =
    { tm with subscriptionMap1 := map₁, subscriptionMap2 := map₂ } := by
  have hfold (topics : List Topic) (tm : TopicManager) : ∃ map₁,
      topics.foldl (fun tm topic => tm.removeSubscription topic h) tm =
        { tm with subscriptionMap1 := map₁ } := by
    induction topics generalizing tm with
    | nil => exact ⟨_, rfl⟩
    | cons topic topics ih =>
      obtain ⟨map₁, hmap₁⟩ := ih (tm.removeSubscription topic h)
      exact ⟨map₁, hmap₁⟩
  obtain ⟨map₁, hmap₁⟩ := hfold (tm.subscriptionMap2 h) tm
  exact ⟨map₁, update tm.subscriptionMap2 h [], by rw [onHandlerDestroyed, hmap₁]⟩

def getClientMessages (h : HandlerPtr) : List Event := tm.pubs.messages h

end TopicManager

end Icm.Messaging
