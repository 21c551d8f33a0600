import Icm.Messaging.Order

/-!
# What a step of the broker does to the messages

A step of the broker changes the messages that wait in one of two ways: a publisher has sent an
event, which is entered for the subscribers of its topic, or a subscriber can be written to, and the
messages that wait for it are sent to it.
-/

namespace Icm.Messaging

open Icm.Lib Icm.Stream List

def PubMaps.insertAll {κ : Type} [DecidableEq κ] (p : PubMaps κ) (e : Event) (ks : List κ) :
    PubMaps κ :=
  ks.foldl (fun p k => p.insert e k) p

theorem mem_of_mem_insertEvent {e a : Event} {events : List Event} (h : a ∈ insertEvent e events) :
    a = e ∨ a ∈ events := by
  induction events with
  | nil => exact Or.inl (mem_singleton.mp h)
  | cons b events ih =>
    rw [insertEvent] at h
    split_ifs at h
    · exact mem_cons.mp h
    · exact Or.inr h
    · rcases mem_cons.mp h with rfl | h
      · exact Or.inr mem_cons_self
      · exact (ih h).imp_right (mem_cons_of_mem b)

theorem PubMaps.mem_of_mem_insertAll {κ : Type} [DecidableEq κ] {p : PubMaps κ} {e a : Event}
    {ks : List κ} {k : κ} (ha : a ∈ (p.insertAll e ks).messages k) :
    a ∈ p.messages k ∨ a = e ∧ k ∈ ks := by
  induction ks generalizing p with
  | nil => exact Or.inl ha
  | cons k₁ ks ih =>
    rcases ih ha with ha | ⟨rfl, hk⟩
    · by_cases hk : k = k₁
      · subst hk
        rw [insert_messages_self] at ha
        exact (mem_of_mem_insertEvent ha).symm.imp_right fun he => ⟨he, mem_cons_self⟩
      · rw [insert_messages_of_ne p e hk] at ha
        exact Or.inl ha
    · exact Or.inr ⟨rfl, mem_cons_of_mem _ hk⟩

def Msg.forwarded (msg : Msg) : List UInt8 :=
  ({ msg.is.start with rdPtr := 0 } : MessageBlock).contents

def Msg.TooOld (msg : Msg) (now : ℤ) : Prop :=
  maxBufferMessageLifeTime < (now - msg.creatTime).bmod (2 ^ 32)

namespace Broker

variable {cfg : Config} {env : Answers} {b b' b'' : Broker} {h : HandlerPtr}
  {sh : SubscriberHandler} {msg : Msg} {ok : Bool}

def published (cfg : Config) (b : Broker) : Upcall → Option (MsgPtr × Msg)
  | .publisherReadable h env =>
    match b.publisherHandlers h with
    | none => none
    | some ph =>
      match parseInput cfg env (ph.msg.map Prod.snd) with
      | .ok (.complete, msg) =>
        if msg.messageType = MsgType.event.toOctet then some (currentPtr env ph, msg) else none
      | _ => none
  | _ => none

variable {u : Upcall}

theorem published_of_ignored {cfg : Config} {b : Broker} (hu : b.Ignored u) :
    published cfg b u = none := by
  cases u with
  | publisherReadable h env => rw [published, show b.publisherHandlers h = none from hu]
  | acceptSubscriber | acceptPublisher | subscriberReadable | subscriberWritable => rfl

structure SameMessages (b b' : Broker) : Prop where
  pubs_ : b'.manager.pubs_ = b.manager.pubs_
  pubs : b'.manager.pubs = b.manager.pubs
  received : b'.received = b.received
  sent : b'.sent = b.sent

namespace SameMessages

theorem refl (b : Broker) : SameMessages b b := ⟨rfl, rfl, rfl, rfl⟩

theorem trans (h : SameMessages b b') (h' : SameMessages b' b'') : SameMessages b b'' :=
  ⟨h'.pubs_.trans h.pubs_, h'.pubs.trans h.pubs, h'.received.trans h.received,
    h'.sent.trans h.sent⟩

theorem registerWriteMask (b : Broker) (h : HandlerPtr) :
    SameMessages b (b.registerWriteMask h) := by
  rw [Broker.registerWriteMask]
  cases b.subscriberHandlers h <;> exact ⟨rfl, rfl, rfl, rfl⟩

theorem onSubscribe (hrun : onSubscribe cfg env b h sh msg = .ok (ok, b')) :
    SameMessages b b' := by
  obtain ⟨⟨id, tm⟩, htm, hrun⟩ := bind_eq_ok.mp hrun
  obtain ⟨⟨ok', bytes⟩, -, hrun⟩ := bind_eq_ok.mp hrun
  cases hrun
  obtain ⟨hpubs_, hpubs⟩ := subscribe_pubs htm
  have hset : SameMessages b
      (({ b with manager := tm } : Broker).setSubscriber h (some { sh with id := id })) :=
    ⟨hpubs_, hpubs, rfl, rfl⟩
  split_ifs
  · exact hset.trans (.registerWriteMask _ h)
  · exact hset

theorem onUnSubscribe (hrun : onUnSubscribe cfg env b h sh msg = .ok (ok, b')) :
    SameMessages b b' := by
  obtain ⟨-, -, hrun⟩ := bind_eq_ok.mp hrun
  obtain ⟨⟨ok', bytes⟩, -, hrun⟩ := bind_eq_ok.mp hrun
  cases hrun
  obtain ⟨hpubs_, hpubs⟩ := unSubscribe_pubs cfg b.manager h sh msg
  exact ⟨hpubs_, hpubs, rfl, rfl⟩

theorem onSubscriberMessage (hrun : onSubscriberMessage cfg env b h sh msg = .ok (ok, b')) :
    SameMessages b b' := by
  rcases onSubscriberMessage_cases hrun with ⟨-, hsubscribe⟩ | ⟨-, rfl⟩ | ⟨-, hunSubscribe⟩
  · exact .onSubscribe hsubscribe
  · exact .refl _
  · exact .onUnSubscribe hunSubscribe

theorem subscriberInput (hrun : subscriberInput cfg env b h sh = .ok (ok, b')) :
    SameMessages b b' := by
  rcases subscriberInput_cases hrun with ⟨result, msg, tmpMsg, -, -, rfl⟩ | ⟨msg, -, hmsg⟩
  · exact ⟨rfl, rfl, rfl, rfl⟩
  · have hsame := SameMessages.onSubscriberMessage hmsg
    exact ⟨hsame.pubs_, hsame.pubs, hsame.received, hsame.sent⟩

theorem closeSubscriber (hrun : closeSubscriber cfg h (ok, b) = .ok b') : SameMessages b b' := by
  rcases closeSubscriber_cases hrun with ⟨rfl, -⟩ | ⟨tm, hpubs_, hpubs, rfl⟩
  · exact .refl _
  · exact ⟨hpubs_, hpubs, rfl, rfl⟩

theorem closePublisher (hrun : closePublisher h (ok, b) = .ok b') : SameMessages b b' := by
  rcases closePublisher_cases hrun with rfl | ⟨ph, -, -, rfl⟩
  · exact .refl _
  · exact ⟨rfl, rfl, rfl, rfl⟩

end SameMessages

theorem messages_of_addMessageTo_ {e : Event} {ids : List ClientId}
    (hrun : addMessageTo_ e ids b = .ok b') :
    b'.manager.pubs_ = b.manager.pubs_.insertAll e ids ∧ b'.manager.pubs = b.manager.pubs ∧
      b'.received = b.received ∧ b'.sent = b.sent := by
  induction ids generalizing b with
  | nil =>
    cases hrun
    exact ⟨rfl, rfl, rfl, rfl⟩
  | cons id ids ih =>
    obtain ⟨-, -, hrun⟩ := bind_eq_ok.mp hrun
    have hmask : SameMessages b (((b.manager.subscribers id).map b.registerWriteMask).getD b) := by
      cases b.manager.subscribers id with
      | none => exact .refl b
      | some h => exact .registerWriteMask b h
    obtain ⟨hpubs_, hpubs, hreceived, hsent⟩ := ih hrun
    refine ⟨?_, hpubs.trans hmask.pubs, hreceived.trans hmask.received, hsent.trans hmask.sent⟩
    rw [hpubs_, hmask.pubs_]
    rfl

def isActiveAt (cfg : Config) (now : ℤ) (b : Broker) (h : HandlerPtr) : Bool :=
  (b.subscriberHandlers h).any (SubscriberHandler.isActive cfg now)

theorem isActiveAt_registerWriteMask (now : ℤ) (b : Broker) (h : HandlerPtr) :
    isActiveAt cfg now (b.registerWriteMask h) = isActiveAt cfg now b := by
  funext p
  rw [registerWriteMask]
  cases hsh : b.subscriberHandlers h with
  | none => rfl
  | some sh =>
    by_cases hp : p = h
    · subst hp
      simp only [isActiveAt, setSubscriber_self, hsh, Option.any_some]
      rfl
    · simp only [isActiveAt, setSubscriber_of_ne b hp]

theorem messages_of_addMessageTo (cfg : Config) (now : ℤ) (e : Event) (hs : List HandlerPtr)
    (b : Broker) :
    (addMessageTo cfg now e hs b).manager.pubs =
        b.manager.pubs.insertAll e (hs.filter (isActiveAt cfg now b)) ∧
      (addMessageTo cfg now e hs b).manager.pubs_ = b.manager.pubs_ ∧
      (addMessageTo cfg now e hs b).received = b.received ∧
      (addMessageTo cfg now e hs b).sent = b.sent := by
  induction hs generalizing b with
  | nil => exact ⟨rfl, rfl, rfl, rfl⟩
  | cons h hs ih =>
    rw [addMessageTo]
    by_cases hactive : isActiveAt cfg now b h = true
    · have hmask := SameMessages.registerWriteMask b h
      rw [if_pos (by exact hactive), filter_cons_of_pos hactive]
      obtain ⟨hpubs, hpubs_, hreceived, hsent⟩ := ih { b.registerWriteMask h with
        manager := { (b.registerWriteMask h).manager with
          pubs := (b.registerWriteMask h).manager.pubs.insert e h } }
      have hsame : isActiveAt cfg now { b.registerWriteMask h with
          manager := { (b.registerWriteMask h).manager with
            pubs := (b.registerWriteMask h).manager.pubs.insert e h } } = isActiveAt cfg now b :=
        isActiveAt_registerWriteMask now b h
      refine ⟨?_, hpubs_.trans hmask.pubs_, hreceived.trans hmask.received,
        hsent.trans hmask.sent⟩
      rw [hsame] at hpubs
      rw [← hmask.pubs]
      exact hpubs
    · rw [if_neg (by exact hactive), filter_cons_of_neg hactive]
      exact ih b

def activeHandlers (cfg : Config) (b : Broker) (now : ℤ) (topic : Topic) : List HandlerPtr :=
  (b.manager.subscriptionMap1 topic).filter (isActiveAt cfg now b)

inductive TableStep (cfg : Config) (b : Broker) (u : Upcall) (b' : Broker) : Prop
  | quiet (hnone : published cfg b u = none) (hsame : SameMessages b b')
  | publish_ (ptr : MsgPtr) (msg : Msg) (hsome : published cfg b u = some (ptr, msg))
      (hbuf : cfg.enableBuffering = true)
      (pubs_ : b'.manager.pubs_ = b.manager.pubs_.checkBufferSize.insertAll
        ⟨ptr, msg, b.received⟩ (b.manager.subscribersOf msg.topic))
      (pubs : b'.manager.pubs = b.manager.pubs) (received : b'.received = b.received + 1)
      (sent : b'.sent = b.sent)
  | publish (ptr : MsgPtr) (msg : Msg) (now : ℤ) (hsome : published cfg b u = some (ptr, msg))
      (hbuf : cfg.enableBuffering = false)
      (pubs : b'.manager.pubs = b.manager.pubs.checkBufferSize.insertAll
        ⟨ptr, msg, b.received⟩ (activeHandlers cfg b now msg.topic))
      (pubs_ : b'.manager.pubs_ = b.manager.pubs_) (received : b'.received = b.received + 1)
      (sent : b'.sent = b.sent)
  | write (h : HandlerPtr) (env : Answers) (sh : SubscriberHandler) (ok : Bool) (b₁ : Broker)
      (hu : u = .subscriberWritable h env) (hsh : b.subscriberHandlers h = some sh)
      (hsend : sendMessages cfg env h sh (pending cfg b h sh.id) env.sends b = .ok (ok, b₁))
      (hsame : SameMessages b₁ b')

theorem TableStep.after (hsame : SameMessages b' b'') (h : TableStep cfg b u b') :
    TableStep cfg b u b'' := by
  cases h with
  | quiet hnone h => exact .quiet hnone (h.trans hsame)
  | publish_ ptr msg hsome hbuf pubs_ pubs received sent =>
    exact .publish_ ptr msg hsome hbuf (hsame.pubs_.trans pubs_) (hsame.pubs.trans pubs)
      (hsame.received.trans received) (hsame.sent.trans sent)
  | publish ptr msg now hsome hbuf pubs pubs_ received sent =>
    exact .publish ptr msg now hsome hbuf (hsame.pubs.trans pubs) (hsame.pubs_.trans pubs_)
      (hsame.received.trans received) (hsame.sent.trans sent)
  | write h env sh ok b₁ hu hsh hsend hwrite =>
    exact .write h env sh ok b₁ hu hsh hsend (hwrite.trans hsame)

theorem messagesOf_eq {messages : List Event}
    (hrun : messagesOf cfg b.manager h sh = .ok messages) :
    messages = pending cfg b h sh.id := by
  rw [messagesOf] at hrun
  rw [pending]
  split_ifs at hrun ⊢
  · obtain ⟨-, -, hrun⟩ := bind_eq_ok.mp hrun
    exact (Except.ok.inj hrun).symm
  · exact (Except.ok.inj hrun).symm

theorem onPublisherMessage_tableStep {ptr : MsgPtr} {b₁ : Broker}
    (hpub : published cfg b u =
      if msg.messageType = MsgType.event.toOctet then some (ptr, msg) else none)
    (hmanager : b₁.manager = b.manager) (hhandlers : b₁.subscriberHandlers = b.subscriberHandlers)
    (hreceived : b₁.received = b.received) (hsent : b₁.sent = b.sent)
    (hrun : onPublisherMessage cfg env b₁ ptr msg = .ok (ok, b')) : TableStep cfg b u b' := by
  have hsame : SameMessages b b₁ := ⟨by rw [hmanager], by rw [hmanager], hreceived, hsent⟩
  rcases onPublisherMessage_cases hrun with
    ⟨hother, rfl⟩ | ⟨htype, -, ⟨hbuf, hadd⟩ | ⟨hbuf, rfl⟩⟩
  · exact .quiet (by rw [hpub, if_neg hother]) hsame
  · rw [if_pos htype] at hpub
    obtain ⟨hpubs_, hpubs, hreceived₂, hsent₂⟩ := messages_of_addMessageTo_ hadd
    rw [hmanager, hreceived] at hpubs_
    exact .publish_ ptr msg hpub hbuf hpubs_ (hpubs.trans hsame.pubs)
      (hreceived₂.trans (congrArg (· + 1) hreceived)) (hsent₂.trans hsent)
  · rw [if_pos htype] at hpub
    obtain ⟨hpubs, hpubs_, hreceived₂, hsent₂⟩ := messages_of_addMessageTo cfg env.now
      ⟨ptr, msg, b₁.received⟩ (b₁.manager.subscriptionMap1 msg.topic) { b₁ with
        manager := { b₁.manager with pubs := b₁.manager.pubs.checkBufferSize }
        received := b₁.received + 1 }
    refine .publish ptr msg env.now hpub hbuf ?_ (hpubs_.trans hsame.pubs_)
      (hreceived₂.trans (congrArg (· + 1) hreceived)) (hsent₂.trans hsent)
    rw [addMessage, hpubs, activeHandlers]
    simp only [hmanager, hhandlers, hreceived]
    rfl

theorem step_tableStep (hrun : Broker.step cfg b u = .ok b') :
    TableStep cfg b u b' := by
  cases dispatched_of_step hrun with
  | ignored hu => exact .quiet (published_of_ignored hu) (.refl b)
  | acceptSubscriber => exact .quiet rfl ⟨rfl, rfl, rfl, rfl⟩
  | acceptPublisher => exact .quiet rfl ⟨rfl, rfl, rfl, rfl⟩
  | subscriberReadable _ hinput hclose =>
    exact .quiet rfl ((SameMessages.subscriberInput hinput).trans (.closeSubscriber hclose))
  | @subscriberWritable h env sh ok b₂ b' hsh _ houtput hclose =>
    obtain ⟨messages, hmessages, houtput⟩ := bind_eq_ok.mp houtput
    obtain ⟨⟨ok₁, b₁⟩, hsend, houtput⟩ := bind_eq_ok.mp houtput
    obtain ⟨rfl, rfl⟩ := Prod.mk.inj (Except.ok.inj houtput)
    rw [messagesOf_eq hmessages] at hsend
    refine .write h env sh ok₁ b₁ rfl hsh hsend ?_
    have hsame := SameMessages.closeSubscriber hclose
    exact ⟨hsame.pubs_, hsame.pubs, hsame.received, hsame.sent⟩
  | publisherReadable hph hinput hclose =>
    rcases publisherInput_cases hinput with
      ⟨result, msg, current, hparse, hresult, rfl⟩ | ⟨msg, hparse, hmsg⟩
    · have hsame := SameMessages.closePublisher hclose
      refine .quiet ?_ ⟨hsame.pubs_, hsame.pubs, hsame.received, hsame.sent⟩
      cases result with
      | error | half => simp only [published, hph, hparse]
      | complete => exact absurd rfl hresult
    · refine .after (SameMessages.closePublisher hclose) ?_
      refine onPublisherMessage_tableStep ?_ ?_ ?_ ?_ ?_ hmsg
      · simp only [published, hph, hparse]
      all_goals rfl

theorem pending_of_buffering (hbuf : cfg.enableBuffering = true) (b : Broker) (h : HandlerPtr)
    (id : ClientId) : pending cfg b h id = b.manager.pubs_.messages id := if_pos hbuf

theorem pending_of_plain (hbuf : cfg.enableBuffering = false) (b : Broker) (h : HandlerPtr)
    (id : ClientId) : pending cfg b h id = b.manager.pubs.messages h := by
  rw [pending, hbuf, if_neg Bool.false_ne_true]

theorem sendMessage_spec {e : Event} {r : SendResult}
    (hrun : sendMessage cfg env b h sh e r = .ok (ok, b')) :
    e.msg.TooOld env.now ∧ ok = true ∧ b' = b ∨
    ¬ e.msg.TooOld env.now ∧ ok = false ∧ b' = b ∨
    ¬ e.msg.TooOld env.now ∧ ∃ room : ℕ, ok = decide (e.msg.forwarded.length ≤ room) ∧
      b' = { b with sent := b.sent ++
        [⟨sh.connection, sh.id, e.serial, e.msg.forwarded.take room⟩] } := by
  simp only [sendMessage] at hrun
  split_ifs at hrun with hlife
  · obtain ⟨-, -, hrun⟩ := bind_eq_ok.mp hrun
    cases r with
    | failed =>
      cases hrun
      exact Or.inr (Or.inl ⟨not_lt.mpr hlife, rfl, rfl⟩)
    | accepted room =>
      cases hrun
      refine Or.inr (Or.inr ⟨not_lt.mpr hlife, room, ?_, rfl⟩)
      rw [Msg.forwarded, MessageBlock.length_contents]
  · cases hrun
    exact Or.inl ⟨not_le.mp hlife, rfl, rfl⟩

theorem sent_of_sendMessages {es : List Event} {rs : ℕ → SendResult}
    (hrun : sendMessages cfg env h sh es rs b = .ok (ok, b')) {s : Sent} (hs : s ∈ b'.sent) :
    s ∈ b.sent ∨ ∃ e ∈ es, ∃ room,
      s = ⟨sh.connection, sh.id, e.serial, e.msg.forwarded.take room⟩ := by
  induction es generalizing rs b with
  | nil =>
    cases hrun
    exact Or.inl hs
  | cons e es ih =>
    obtain ⟨⟨ok₁, b₁⟩, hsend, hloop⟩ := bind_eq_ok.mp hrun
    have hfirst (hs : s ∈ b₁.sent) : s ∈ b.sent ∨ ∃ a ∈ e :: es, ∃ room,
        s = ⟨sh.connection, sh.id, a.serial, a.msg.forwarded.take room⟩ := by
      rcases sendMessage_spec hsend with ⟨-, -, rfl⟩ | ⟨-, -, rfl⟩ | ⟨-, room, -, rfl⟩
      · exact Or.inl hs
      · exact Or.inl hs
      · refine (mem_append.mp hs).imp_right fun hs => ?_
        exact ⟨e, mem_cons_self, room, mem_singleton.mp hs⟩
    cases ok₁ with
    | false =>
      cases hloop
      exact hfirst hs
    | true =>
      rcases ih hloop with hs | ⟨a, ha, room, rfl⟩
      · exact hfirst hs
      · exact Or.inr ⟨a, mem_cons_of_mem e ha, room, rfl⟩

theorem received_of_step (hrun : Broker.step cfg b u = .ok b') :
    b'.received = b.received + (published cfg b u).toList.length := by
  cases step_tableStep hrun with
  | quiet hnone hsame =>
    rw [hnone, hsame.received]
    rfl
  | publish_ ptr msg hsome _ _ _ received _ =>
    rw [hsome, received]
    rfl
  | publish ptr msg now hsome _ _ _ received _ =>
    rw [hsome, received]
    rfl
  | write h env sh ok b₁ hu _ hsend hsame =>
    rw [hu, hsame.received, (sendMessages_sends hsend).1.received]
    rfl

def Addressed (cfg : Config) (b : Broker) (topic : Topic) (h : HandlerPtr) (id : ClientId) : Prop :=
  if cfg.enableBuffering then id ∈ b.manager.subscribersOf topic
  else h ∈ b.manager.subscriptionMap1 topic

theorem mem_pending_of_step (hrun : Broker.step cfg b u = .ok b') {id : ClientId}
    {e : Event} (he : e ∈ pending cfg b' h id) :
    e ∈ pending cfg b h id ∨ ∃ ptr msg, published cfg b u = some (ptr, msg) ∧
      e = ⟨ptr, msg, b.received⟩ ∧ Addressed cfg b msg.topic h id := by
  cases step_tableStep hrun with
  | quiet _ hsame =>
    rw [pending, hsame.pubs_, hsame.pubs] at he
    exact Or.inl he
  | publish_ ptr msg hsome hbuf pubs_ =>
    rw [pending_of_buffering hbuf, pubs_] at he
    rw [pending_of_buffering hbuf]
    rcases PubMaps.mem_of_mem_insertAll he with he | ⟨rfl, hid⟩
    · exact Or.inl ((b.manager.pubs_.checkBufferSize_sublist id).subset he)
    · exact Or.inr ⟨ptr, msg, hsome, rfl, (if_pos hbuf).mpr hid⟩
  | publish ptr msg now hsome hbuf pubs =>
    rw [pending_of_plain hbuf, pubs] at he
    rw [pending_of_plain hbuf]
    rcases PubMaps.mem_of_mem_insertAll he with he | ⟨rfl, hactive⟩
    · exact Or.inl ((b.manager.pubs.checkBufferSize_sublist h).subset he)
    · refine Or.inr ⟨ptr, msg, hsome, rfl, ?_⟩
      rw [Addressed, hbuf, if_neg Bool.false_ne_true]
      exact mem_of_mem_filter hactive
  | write h' env sh' ok b₁ hu _ hsend hsame =>
    rw [pending, hsame.pubs_, hsame.pubs] at he
    exact Or.inl (((sendMessages_sends hsend).1.pending h id).subset he)

theorem mem_sent_of_step (hrun : Broker.step cfg b u = .ok b') {s : Sent}
    (hs : s ∈ b'.sent) :
    s ∈ b.sent ∨ ∃ h sh, b.subscriberHandlers h = some sh ∧ ∃ e ∈ pending cfg b h sh.id, ∃ room,
      s = ⟨sh.connection, sh.id, e.serial, e.msg.forwarded.take room⟩ := by
  cases step_tableStep hrun with
  | quiet _ hsame => exact Or.inl (hsame.sent ▸ hs)
  | publish_ _ _ _ _ _ _ _ sent => exact Or.inl (sent ▸ hs)
  | publish _ _ _ _ _ _ _ _ sent => exact Or.inl (sent ▸ hs)
  | write h env sh ok b₁ _ hsh hsend hsame =>
    rw [hsame.sent] at hs
    exact (sent_of_sendMessages hsend hs).imp_right fun hnew => ⟨h, sh, hsh, hnew⟩

end Broker

end Icm.Messaging
