import Icm.Messaging.TopicManager

/-!
# The broker

The broker process as a state machine: the connection handlers `SubscriberHandler` and
`PublisherHandler` (`msg/SubscriberProxy.cpp`, `msg/PublisherProxy.cpp`) with the topic manager,
driven by the reactor.
-/

namespace Icm.Messaging

open Icm.Lib Icm.Stream

structure Config where
  host : ByteOrder
  enableBuffering : Bool
  keepAliveTryTimes : BitVec 32
  keepAliveTimeSpan : BitVec 32

structure Answers where
  now : ℤ
  junk : ℕ
  msgPtr : MsgPtr
  heap : ℕ → Chunk
  osHeap : ℕ → Chunk
  checkHeap : ℕ → Chunk
  recvs : ℕ → Recv
  sends : ℕ → SendResult

structure SubscriberHandler where
  connection : ℕ
  id : ClientId
  tmpMsg : Option Msg
  recentActiveTime : ℤ
  writeMask : Bool

structure PublisherHandler where
  msg : Option (MsgPtr × Msg)

/-- An event that was sent to a subscriber on a connection: the socket took some bytes of it. -/
structure Sent where
  connection : ℕ
  id : ClientId
  serial : ℕ
  bytes : List UInt8
  deriving DecidableEq, Repr

/-- The state of the process. The numbers of connections and events, and the list of the events that
were sent, are known to no function of the source. -/
structure Broker where
  manager : TopicManager
  subscriberHandlers : HandlerPtr → Option SubscriberHandler
  publisherHandlers : HandlerPtr → Option PublisherHandler
  connections : ℕ
  received : ℕ
  sent : List Sent

def SubscriberHandler.isActive (cfg : Config) (now : ℤ) (sh : SubscriberHandler) : Bool :=
  now - sh.recentActiveTime ≤ (cfg.keepAliveTryTimes * cfg.keepAliveTimeSpan).toInt

def ascii (s : String) : List UInt8 := s.toList.map fun c => .ofNat c.toNat

def decimal (n : ℕ) : List UInt8 := (Nat.toDigits 10 n).map fun c => .ofNat c.toNat

theorem lt_ten_of_length_decimal {n : ℕ} (h : (decimal n).length = 1) : n < 10 := by
  rw [decimal, List.length_map] at h
  have hlt : n < 10 ^ 1 := (Nat.length_toDigits_le_iff (by decide) Nat.one_pos).mp h.le
  exact hlt

def maxBufferMessageLifeTime : ℤ := 2 * 60

namespace Broker

variable (cfg : Config)

variable (b : Broker)

def setSubscriber (h : HandlerPtr) (sh : Option SubscriberHandler) : Broker :=
  { b with subscriberHandlers := Function.update b.subscriberHandlers h sh }

theorem setSubscriber_self (h : HandlerPtr) (sh : Option SubscriberHandler) :
    (b.setSubscriber h sh).subscriberHandlers h = sh :=
  Function.update_self ..

theorem setSubscriber_of_ne {h h' : HandlerPtr} (hne : h' ≠ h)
    (sh : Option SubscriberHandler) :
    (b.setSubscriber h sh).subscriberHandlers h' = b.subscriberHandlers h' :=
  Function.update_of_ne hne ..

def setPublisher (h : HandlerPtr) (ph : Option PublisherHandler) : Broker :=
  { b with publisherHandlers := Function.update b.publisherHandlers h ph }

theorem setPublisher_self (h : HandlerPtr) (ph : Option PublisherHandler) :
    (b.setPublisher h ph).publisherHandlers h = ph :=
  Function.update_self ..

theorem setPublisher_of_ne {h h' : HandlerPtr} (hne : h' ≠ h)
    (ph : Option PublisherHandler) :
    (b.setPublisher h ph).publisherHandlers h' = b.publisherHandlers h' :=
  Function.update_of_ne hne ..

def registerWriteMask (h : HandlerPtr) : Broker :=
  match b.subscriberHandlers h with
  | some sh => b.setSubscriber h (some { sh with writeMask := true })
  | none => b

def addMessageTo_ (e : Event) : List ClientId → Broker → Except Assertion Broker
  | [], b => .ok b
  | id :: ids, b => do
    require .subscriptionId (id ≠ [])
    let b := ((b.manager.subscribers id).map b.registerWriteMask).getD b
    addMessageTo_ e ids
      { b with manager := { b.manager with pubs_ := b.manager.pubs_.insert e id } }

def addMessage_ (b : Broker) (ptr : MsgPtr) (msg : Msg) : Except Assertion Broker :=
  let ids := b.manager.subscribersOf msg.topic
  addMessageTo_ ⟨ptr, msg, b.received⟩ ids { b with
    manager := { b.manager with
      pubs_ := b.manager.pubs_.checkBufferSize
      subscriptionMap := b.manager.subscriptionMap.insert msg.topic ids }
    received := b.received + 1 }

def addMessageTo (now : ℤ) (e : Event) : List HandlerPtr → Broker → Broker
  | [], b => b
  | h :: hs, b =>
    if (b.subscriberHandlers h).any (SubscriberHandler.isActive cfg now) then
      let b := b.registerWriteMask h
      addMessageTo now e hs
        { b with manager := { b.manager with pubs := b.manager.pubs.insert e h } }
    else addMessageTo now e hs b

def addMessage (b : Broker) (now : ℤ) (ptr : MsgPtr) (msg : Msg) : Broker :=
  addMessageTo cfg now ⟨ptr, msg, b.received⟩ (b.manager.subscriptionMap1 msg.topic) { b with
    manager := { b.manager with pubs := b.manager.pubs.checkBufferSize }
    received := b.received + 1 }

variable (env : Answers)

def reply (type : MsgType) (fields : List Value) : Except Assertion (Bool × List UInt8) := do
  let os ← written ((MsgProtocol.start cfg.host type (.create cfg.host env.osHeap)).bind
    (OutputStream.writeValues cfg.host fields))
  MsgProtocol.send cfg.host env.checkHeap env.junk env.sends os

def noId : ClientId := ascii "0"

def chooseId (tm : TopicManager) (subscriberId : ClientId) :
    Except Assertion (ClientId × TopicManager) := do
  require .subscriberId (subscriberId ≠ [])
  if subscriberId = noId then
    let (allocatedClientId, tm) := tm.allocateClientId_
    require .allocatedId ((decimal allocatedClientId).length = 1)
    return (decimal allocatedClientId, tm)
  else return (subscriberId, tm)

def subscribe (tm : TopicManager) (h : HandlerPtr) (sh : SubscriberHandler) (msg : Msg) :
    Except Assertion (ClientId × TopicManager) :=
  if cfg.enableBuffering then do
    let (id, tm) ← chooseId tm msg.subscriberId
    let tm ← tm.addSubscription_ msg.topic id h
    return (id, tm.saveSubscriptionInfoToDisk_)
  else do
    let tm ← tm.addSubscription msg.topic h
    return (sh.id, tm)

def onSubscribe (b : Broker) (h : HandlerPtr) (sh : SubscriberHandler) (msg : Msg) :
    Except Assertion (Bool × Broker) := do
  let (id, tm) ← subscribe cfg b.manager h sh msg
  let b := ({ b with manager := tm } : Broker).setSubscriber h (some { sh with id := id })
  let (ok, _) ← reply cfg env .subscribeOK [.string msg.topic, .string id,
    .int cfg.keepAliveTryTimes, .int cfg.keepAliveTimeSpan]
  return (ok, if ok then b.registerWriteMask h else b)

def unSubscribe (tm : TopicManager) (h : HandlerPtr) (sh : SubscriberHandler) (msg : Msg) :
    TopicManager :=
  if cfg.enableBuffering then (tm.removeSubscription_ msg.topic sh.id).saveSubscriptionInfoToDisk_
  else tm.removeSubscription msg.topic h

def onUnSubscribe (b : Broker) (h : HandlerPtr) (sh : SubscriberHandler) (msg : Msg) :
    Except Assertion (Bool × Broker) := do
  require .sameId (sh.id = msg.subscriberId)
  let (ok, _) ← reply cfg env .unSubscribeOK [.string msg.topic]
  return (ok, { b with manager := unSubscribe cfg b.manager h sh msg })

def onKeepAliveProbe (b : Broker) : Except Assertion (Bool × Broker) := do
  let (ok, _) ← reply cfg env .keepAliveACK [.string (ascii "keepAlive")]
  return (ok, b)

def onSubscriberMessage (b : Broker) (h : HandlerPtr) (sh : SubscriberHandler) (msg : Msg) :
    Except Assertion (Bool × Broker) :=
  if msg.messageType = MsgType.subscribe.toOctet then onSubscribe cfg env b h sh msg
  else if msg.messageType = MsgType.keepAliveProbe.toOctet then onKeepAliveProbe cfg env b
  else if msg.messageType = MsgType.unSubscribe.toOctet then onUnSubscribe cfg env b h sh msg
  else .error .subscriberType

def currentMsg (tmpMsg : Option Msg) : Msg :=
  tmpMsg.getD (newMsg cfg.host env.junk ⟨env.heap, env.now⟩)

def parseInput (tmpMsg : Option Msg) : Except Assertion (ParseResult × Msg) := do
  let (r, _) ← MsgProtocol.parse cfg.host (scripted intMax) env.heap env.junk
    (currentMsg cfg env tmpMsg) env.recvs
  return r

def subscriberInput (b : Broker) (h : HandlerPtr) (sh : SubscriberHandler) :
    Except Assertion (Bool × Broker) := do
  let (result, msg) ← parseInput cfg env sh.tmpMsg
  let sh := { sh with
    recentActiveTime := env.now
    tmpMsg := if result = .half then some msg else none }
  let b := b.setSubscriber h (some sh)
  match result with
  | .error => return (false, b)
  | .half => return (true, b)
  | .complete => onSubscriberMessage cfg env b h sh msg

def checkHandler (tm : TopicManager) (h : HandlerPtr) (sh : SubscriberHandler) :
    Except Assertion Unit := do
  require .sendId (sh.id ≠ [])
  if cfg.enableBuffering then
    let handler ← tm.getHandlerOfClient_ sh.id
    require .sendHandler (handler = some h)

def sendMessage (b : Broker) (h : HandlerPtr) (sh : SubscriberHandler) (e : Event)
    (r : SendResult) : Except Assertion (Bool × Broker) :=
  let mb := { e.msg.is.start with rdPtr := 0 }
  let life := (env.now - e.msg.creatTime).bmod (2 ^ 32)
  if life ≤ maxBufferMessageLifeTime then do
    checkHandler cfg b.manager h sh
    match r with
    | .failed => return (false, b)
    | .accepted room =>
      return (decide (mb.length ≤ (room : ℕ)),
        { b with sent := b.sent ++ [⟨sh.connection, sh.id, e.serial, mb.contents.take room⟩] })
  else return (true, b)

def onMessageSent (b : Broker) (h : HandlerPtr) (sh : SubscriberHandler) (e : Event) : Broker :=
  { b with
    manager :=
      if cfg.enableBuffering then
        { b.manager with pubs_ := b.manager.pubs_.onMessageSent e.ptr sh.id }
      else { b.manager with pubs := b.manager.pubs.onMessageSent e.ptr h } }

def sendMessages (h : HandlerPtr) (sh : SubscriberHandler) :
    List Event → (ℕ → SendResult) → Broker → Except Assertion (Bool × Broker)
  | [], _, b => .ok (true, b)
  | e :: es, rs, b => do
    let (ok, b) ← sendMessage cfg env b h sh e (rs 0)
    if ok then sendMessages h sh es (fun i => rs (i + 1)) (onMessageSent cfg b h sh e)
    else return (false, b)

def messagesOf (tm : TopicManager) (h : HandlerPtr) (sh : SubscriberHandler) :
    Except Assertion (List Event) :=
  if cfg.enableBuffering then tm.getClientMessages_ sh.id else .ok (tm.getClientMessages h)

def subscriberOutput (b : Broker) (h : HandlerPtr) (sh : SubscriberHandler) :
    Except Assertion (Bool × Broker) := do
  let messages ← messagesOf cfg b.manager h sh
  let (ok, b) ← sendMessages cfg env h sh messages env.sends b
  let sh := { sh with
    recentActiveTime := if messages.isEmpty then sh.recentActiveTime else env.now
    writeMask := !ok }
  return (ok, b.setSubscriber h (some sh))

def destroySubscriber (b : Broker) (h : HandlerPtr) (sh : SubscriberHandler) :
    Except Assertion Broker := do
  let tm :=
    if cfg.enableBuffering then
      if sh.id ≠ [] then b.manager.onHandlerDestroyed_ sh.id else b.manager
    else b.manager.onHandlerDestroyed h
  require .subscriberTmpMsg (sh.tmpMsg.isNone)
  return ({ b with manager := tm } : Broker).setSubscriber h none

def onPublisherMessage (b : Broker) (ptr : MsgPtr) (msg : Msg) : Except Assertion (Bool × Broker) :=
  if msg.messageType = MsgType.keepAliveProbe.toOctet then onKeepAliveProbe cfg env b
  else if msg.messageType = MsgType.publish.toOctet then do
    let (ok, _) ← reply cfg env .publishOK [.string (ascii "publishOK"),
      .int cfg.keepAliveTryTimes, .int cfg.keepAliveTimeSpan, .boolean cfg.enableBuffering]
    return (ok, b)
  else do
    require .publisherType (msg.messageType = MsgType.event.toOctet)
    require .publisherTopic (msg.topic ≠ [])
    if cfg.enableBuffering then
      let b ← b.addMessage_ ptr msg
      return (true, b)
    else return (true, b.addMessage cfg env.now ptr msg)

def currentPtr (ph : PublisherHandler) : MsgPtr := (ph.msg.map Prod.fst).getD env.msgPtr

def publisherInput (b : Broker) (h : HandlerPtr) (ph : PublisherHandler) :
    Except Assertion (Bool × Broker) := do
  let ptr := currentPtr env ph
  let (result, msg) ← parseInput cfg env (ph.msg.map Prod.snd)
  let b := b.setPublisher h (some ⟨if result = .half then some (ptr, msg) else none⟩)
  match result with
  | .error => return (false, b)
  | .half => return (true, b)
  | .complete => onPublisherMessage cfg env b ptr msg

def destroyPublisher (b : Broker) (h : HandlerPtr) (ph : PublisherHandler) :
    Except Assertion Broker := do
  require .publisherMsg (ph.msg.isNone)
  return b.setPublisher h none

end Broker

inductive Upcall
  | acceptSubscriber (h : HandlerPtr) (env : Answers)
  | acceptPublisher (h : HandlerPtr)
  | subscriberReadable (h : HandlerPtr) (env : Answers)
  | subscriberWritable (h : HandlerPtr) (env : Answers)
  | publisherReadable (h : HandlerPtr) (env : Answers)

namespace Broker

variable (cfg : Config)

def closeSubscriber (h : HandlerPtr) (r : Bool × Broker) : Except Assertion Broker :=
  match r.1, r.2.subscriberHandlers h with
  | false, some sh => destroySubscriber cfg r.2 h sh
  | _, _ => .ok r.2

def closePublisher (h : HandlerPtr) (r : Bool × Broker) : Except Assertion Broker :=
  match r.1, r.2.publisherHandlers h with
  | false, some ph => destroyPublisher r.2 h ph
  | _, _ => .ok r.2

def step (b : Broker) : Upcall → Except Assertion Broker
  | .acceptSubscriber h env =>
    if (b.subscriberHandlers h).isNone ∧ (b.publisherHandlers h).isNone then
      .ok { b.setSubscriber h (some ⟨b.connections, noId, none, env.now, false⟩) with
        connections := b.connections + 1 }
    else .ok b
  | .acceptPublisher h =>
    if (b.subscriberHandlers h).isNone ∧ (b.publisherHandlers h).isNone then
      .ok (b.setPublisher h (some ⟨none⟩))
    else .ok b
  | .subscriberReadable h env =>
    match b.subscriberHandlers h with
    | some sh => subscriberInput cfg env b h sh >>= closeSubscriber cfg h
    | none => .ok b
  | .subscriberWritable h env =>
    match b.subscriberHandlers h with
    | some sh =>
      if sh.writeMask then subscriberOutput cfg env b h sh >>= closeSubscriber cfg h else .ok b
    | none => .ok b
  | .publisherReadable h env =>
    match b.publisherHandlers h with
    | some ph => publisherInput cfg env b h ph >>= closePublisher h
    | none => .ok b

def start (subscriptionMap : AList fun _ : Topic => List ClientId) (nextAllocateClientId : ℕ) :
    Broker where
  manager :=
    { subscribers := fun _ => none
      subscriptionMap := subscriptionMap
      nextAllocateClientId := nextAllocateClientId
      pubs_ := .empty
      subscriptionMap1 := fun _ => []
      subscriptionMap2 := fun _ => []
      pubs := .empty }
  subscriberHandlers := fun _ => none
  publisherHandlers := fun _ => none
  connections := 0
  received := 0
  sent := []

def Ignored (b : Broker) : Upcall → Prop
  | .acceptSubscriber h _ | .acceptPublisher h =>
    ¬ ((b.subscriberHandlers h).isNone ∧ (b.publisherHandlers h).isNone)
  | .subscriberReadable h _ => b.subscriberHandlers h = none
  | .subscriberWritable h _ => ∀ sh, b.subscriberHandlers h = some sh → sh.writeMask = false
  | .publisherReadable h _ => b.publisherHandlers h = none

inductive Dispatched (b : Broker) : Upcall → Broker → Prop
  | ignored {u : Upcall} (hu : b.Ignored u) : Dispatched b u b
  | acceptSubscriber {h : HandlerPtr} {env : Answers}
      (hfree : (b.subscriberHandlers h).isNone ∧ (b.publisherHandlers h).isNone) :
      Dispatched b (.acceptSubscriber h env)
        { b.setSubscriber h (some ⟨b.connections, noId, none, env.now, false⟩) with
          connections := b.connections + 1 }
  | acceptPublisher {h : HandlerPtr}
      (hfree : (b.subscriberHandlers h).isNone ∧ (b.publisherHandlers h).isNone) :
      Dispatched b (.acceptPublisher h) (b.setPublisher h (some ⟨none⟩))
  | subscriberReadable {h : HandlerPtr} {env : Answers} {sh : SubscriberHandler} {ok : Bool}
      {b₁ b' : Broker} (hsh : b.subscriberHandlers h = some sh)
      (hinput : subscriberInput cfg env b h sh = .ok (ok, b₁))
      (hclose : closeSubscriber cfg h (ok, b₁) = .ok b') :
      Dispatched b (.subscriberReadable h env) b'
  | subscriberWritable {h : HandlerPtr} {env : Answers} {sh : SubscriberHandler} {ok : Bool}
      {b₁ b' : Broker} (hsh : b.subscriberHandlers h = some sh) (hmask : sh.writeMask = true)
      (houtput : subscriberOutput cfg env b h sh = .ok (ok, b₁))
      (hclose : closeSubscriber cfg h (ok, b₁) = .ok b') :
      Dispatched b (.subscriberWritable h env) b'
  | publisherReadable {h : HandlerPtr} {env : Answers} {ph : PublisherHandler} {ok : Bool}
      {b₁ b' : Broker} (hph : b.publisherHandlers h = some ph)
      (hinput : publisherInput cfg env b h ph = .ok (ok, b₁))
      (hclose : closePublisher h (ok, b₁) = .ok b') :
      Dispatched b (.publisherReadable h env) b'

variable {cfg}

theorem dispatched_of_step {b b' : Broker} {u : Upcall} (hrun : step cfg b u = .ok b') :
    Dispatched cfg b u b' := by
  cases u with
  | acceptSubscriber h env =>
    rw [step] at hrun
    split_ifs at hrun with hfree
    · cases hrun
      exact .acceptSubscriber hfree
    · cases hrun
      exact .ignored hfree
  | acceptPublisher h =>
    rw [step] at hrun
    split_ifs at hrun with hfree
    · cases hrun
      exact .acceptPublisher hfree
    · cases hrun
      exact .ignored hfree
  | subscriberReadable h env =>
    rw [step] at hrun
    cases hsh : b.subscriberHandlers h with
    | none =>
      simp only [hsh] at hrun
      cases hrun
      exact .ignored hsh
    | some sh =>
      simp only [hsh] at hrun
      obtain ⟨⟨ok, b₁⟩, hinput, hclose⟩ := bind_eq_ok.mp hrun
      exact .subscriberReadable hsh hinput hclose
  | subscriberWritable h env =>
    rw [step] at hrun
    cases hsh : b.subscriberHandlers h with
    | none =>
      simp only [hsh] at hrun
      cases hrun
      refine .ignored fun sh hsome => ?_
      rw [hsh] at hsome
      cases hsome
    | some sh =>
      simp only [hsh] at hrun
      split_ifs at hrun with hmask
      · obtain ⟨⟨ok, b₁⟩, houtput, hclose⟩ := bind_eq_ok.mp hrun
        exact .subscriberWritable hsh hmask houtput hclose
      · cases hrun
        refine .ignored fun sh' hsome => ?_
        obtain rfl := Option.some.inj (hsh.symm.trans hsome)
        exact Bool.eq_false_iff.mpr hmask
  | publisherReadable h env =>
    rw [step] at hrun
    cases hph : b.publisherHandlers h with
    | none =>
      simp only [hph] at hrun
      cases hrun
      exact .ignored hph
    | some ph =>
      simp only [hph] at hrun
      obtain ⟨⟨ok, b₁⟩, hinput, hclose⟩ := bind_eq_ok.mp hrun
      exact .publisherReadable hph hinput hclose

section Messages

variable {env : Answers} {b b' : Broker} {h : HandlerPtr} {msg : Msg} {ok : Bool}

theorem onKeepAliveProbe_eq (hrun : onKeepAliveProbe cfg env b = .ok (ok, b')) : b' = b := by
  obtain ⟨⟨ok', bytes⟩, -, hrun⟩ := bind_eq_ok.mp hrun
  exact (Prod.mk.inj (Except.ok.inj hrun)).2.symm

theorem manager_registerWriteMask (b : Broker) (h : HandlerPtr) :
    (b.registerWriteMask h).manager = b.manager := by
  rw [registerWriteMask]
  cases b.subscriberHandlers h <;> rfl

section Loops

variable {e : Event} {I : Broker → Prop}

theorem addMessageTo_.invariant
    (hmask : ∀ b id h, b.manager.subscribers id = some h → I b → I (b.registerWriteMask h))
    (hinsert : ∀ (b : Broker) id, I b →
      I { b with manager := { b.manager with pubs_ := b.manager.pubs_.insert e id } })
    {ids : List ClientId} (hrun : addMessageTo_ e ids b = .ok b') (hb : I b) : I b' := by
  induction ids generalizing b with
  | nil =>
    cases hrun
    exact hb
  | cons id ids ih =>
    obtain ⟨-, -, hrun⟩ := bind_eq_ok.mp hrun
    refine ih hrun (hinsert _ id ?_)
    cases hid : b.manager.subscribers id with
    | none => exact hb
    | some h => exact hmask b id h hid hb

theorem addMessageTo.invariant (hmask : ∀ b h, I b → I (b.registerWriteMask h))
    (hinsert : ∀ (b : Broker) h, I b →
      I { b with manager := { b.manager with pubs := b.manager.pubs.insert e h } })
    (cfg : Config) (now : ℤ) (hs : List HandlerPtr) (hb : I b) :
    I (addMessageTo cfg now e hs b) := by
  induction hs generalizing b with
  | nil => exact hb
  | cons h hs ih =>
    rw [addMessageTo]
    split_ifs
    · exact ih (hinsert _ h (hmask b h hb))
    · exact ih hb

end Loops

theorem manager_of_addMessageTo_ {e : Event} {ids : List ClientId}
    (hrun : addMessageTo_ e ids b = .ok b') :
    ∃ pubs_, b'.manager = { b.manager with pubs_ := pubs_ } := by
  refine addMessageTo_.invariant (I := fun b' => ∃ pubs_, b'.manager =
    { b.manager with pubs_ := pubs_ }) ?_ ?_ hrun ⟨_, rfl⟩
  · rintro b₁ - h - ⟨pubs_, hmanager⟩
    exact ⟨pubs_, (manager_registerWriteMask b₁ h).trans hmanager⟩
  · rintro b₁ id ⟨pubs_, hmanager⟩
    exact ⟨_, by rw [hmanager]⟩

theorem manager_addMessageTo (cfg : Config) (now : ℤ) (e : Event) (hs : List HandlerPtr)
    (b : Broker) : ∃ pubs, (addMessageTo cfg now e hs b).manager =
      { b.manager with pubs := pubs } := by
  refine addMessageTo.invariant (I := fun b' => ∃ pubs, b'.manager =
    { b.manager with pubs := pubs }) ?_ ?_ cfg now hs ⟨_, rfl⟩
  · rintro b₁ h ⟨pubs, hmanager⟩
    exact ⟨pubs, (manager_registerWriteMask b₁ h).trans hmanager⟩
  · rintro b₁ h ⟨pubs, hmanager⟩
    exact ⟨_, by rw [hmanager]⟩

theorem manager_of_closeSubscriber (hrun : closeSubscriber cfg h (ok, b) = .ok b') :
    b'.manager = b.manager ∨ (∃ id, b'.manager = b.manager.onHandlerDestroyed_ id) ∨
      b'.manager = b.manager.onHandlerDestroyed h := by
  rw [closeSubscriber] at hrun
  split at hrun
  next sh _ _ =>
    obtain ⟨-, -, hrun⟩ := bind_eq_ok.mp hrun
    cases hrun
    simp only [setSubscriber]
    split_ifs
    · exact Or.inr (Or.inl ⟨sh.id, rfl⟩)
    · exact Or.inl rfl
    · exact Or.inr (Or.inr rfl)
  next =>
    cases hrun
    exact Or.inl rfl

theorem closePublisher_cases (hrun : closePublisher h (ok, b) = .ok b') :
    b' = b ∨ ∃ ph, b.publisherHandlers h = some ph ∧ ph.msg = none ∧
      b' = b.setPublisher h none := by
  rw [closePublisher] at hrun
  split at hrun
  · next ph _ hph =>
    obtain ⟨⟨⟩, hnone, hrun⟩ := bind_eq_ok.mp hrun
    cases hrun
    exact Or.inr ⟨ph, hph, Option.isNone_iff_eq_none.mp (require_eq_ok.mp hnone), rfl⟩
  · cases hrun
    exact Or.inl rfl

theorem manager_of_closePublisher (hrun : closePublisher h (ok, b) = .ok b') :
    b'.manager = b.manager := by
  rcases closePublisher_cases hrun with rfl | ⟨ph, -, -, rfl⟩ <;> rfl

theorem chooseId_eq {tm tm' : TopicManager} {subscriberId id : ClientId}
    (hrun : chooseId tm subscriberId = .ok (id, tm')) :
    ∃ n, tm' = { tm with nextAllocateClientId := n } := by
  obtain ⟨-, -, hrun⟩ := bind_eq_ok.mp hrun
  split_ifs at hrun
  · obtain ⟨-, -, hrun⟩ := bind_eq_ok.mp hrun
    cases hrun
    exact ⟨_, rfl⟩
  · cases hrun
    exact ⟨_, rfl⟩

theorem onSubscriberMessage_cases {sh : SubscriberHandler}
    (hrun : onSubscriberMessage cfg env b h sh msg = .ok (ok, b')) :
    msg.messageType = MsgType.subscribe.toOctet ∧ onSubscribe cfg env b h sh msg = .ok (ok, b') ∨
      msg.messageType = MsgType.keepAliveProbe.toOctet ∧ b' = b ∨
      msg.messageType = MsgType.unSubscribe.toOctet ∧
        onUnSubscribe cfg env b h sh msg = .ok (ok, b') := by
  rw [onSubscriberMessage] at hrun
  split_ifs at hrun with hsubscribe hprobe hunSubscribe
  · exact Or.inl ⟨hsubscribe, hrun⟩
  · exact Or.inr (Or.inl ⟨hprobe, onKeepAliveProbe_eq hrun⟩)
  · exact Or.inr (Or.inr ⟨hunSubscribe, hrun⟩)

theorem subscriberInput_cases {sh : SubscriberHandler}
    (hrun : subscriberInput cfg env b h sh = .ok (ok, b')) :
    (∃ result msg tmpMsg, parseInput cfg env sh.tmpMsg = .ok (result, msg) ∧ result ≠ .complete ∧
      b' = b.setSubscriber h (some { sh with recentActiveTime := env.now, tmpMsg := tmpMsg })) ∨
    ∃ msg, parseInput cfg env sh.tmpMsg = .ok (.complete, msg) ∧
      onSubscriberMessage cfg env
        (b.setSubscriber h (some { sh with recentActiveTime := env.now, tmpMsg := none })) h
        { sh with recentActiveTime := env.now, tmpMsg := none } msg = .ok (ok, b') := by
  obtain ⟨⟨result, msg⟩, hparse, hrun⟩ := bind_eq_ok.mp hrun
  cases result with
  | error =>
    cases hrun
    exact Or.inl ⟨.error, msg, none, hparse, nofun, rfl⟩
  | half =>
    cases hrun
    exact Or.inl ⟨.half, msg, some msg, hparse, nofun, rfl⟩
  | complete => exact Or.inr ⟨msg, hparse, hrun⟩

theorem publisherInput_cases {ph : PublisherHandler}
    (hrun : publisherInput cfg env b h ph = .ok (ok, b')) :
    (∃ result msg current, parseInput cfg env (ph.msg.map Prod.snd) = .ok (result, msg) ∧
      result ≠ .complete ∧ b' = b.setPublisher h (some ⟨current⟩)) ∨
    ∃ msg, parseInput cfg env (ph.msg.map Prod.snd) = .ok (.complete, msg) ∧
      onPublisherMessage cfg env (b.setPublisher h (some ⟨none⟩)) (currentPtr env ph) msg =
        .ok (ok, b') := by
  obtain ⟨⟨result, msg⟩, hparse, hrun⟩ := bind_eq_ok.mp hrun
  cases result with
  | error =>
    cases hrun
    exact Or.inl ⟨.error, msg, none, hparse, nofun, rfl⟩
  | half =>
    cases hrun
    exact Or.inl ⟨.half, msg, some (currentPtr env ph, msg), hparse, nofun, rfl⟩
  | complete => exact Or.inr ⟨msg, hparse, hrun⟩

end Messages

end Broker

end Icm.Messaging
