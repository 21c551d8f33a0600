import Icm.Messaging.Broker

/-!
# The order of events

The messages of a subscriber wait in a set that is ordered by address, and are sent in the order of
that set.
-/

namespace Icm.Messaging

open Icm.Lib Icm.Stream List

def Extends (n n' : ℕ) (earlier later : List Event) : Prop :=
  ∃ kept new, later = kept ++ new ∧ kept.Sublist earlier ∧
    new.Pairwise (fun a b => a.serial < b.serial) ∧ ∀ e ∈ new, n ≤ e.serial ∧ e.serial < n'

namespace Extends

variable {earlier later : List Event}

theorem of_sublist {n n' : ℕ} (h : later.Sublist earlier) :
    Extends n n' earlier later :=
  ⟨later, [], (append_nil _).symm, h, List.Pairwise.nil, forall_mem_nil _⟩

theorem trans {n₁ n₂ n₃ : ℕ} {l₁ l₂ l₃ : List Event} (h₁ : Extends n₁ n₂ l₁ l₂)
    (h₂ : Extends n₂ n₃ l₂ l₃) (h₁₂ : n₁ ≤ n₂) (h₂₃ : n₂ ≤ n₃) : Extends n₁ n₃ l₁ l₃ := by
  obtain ⟨kept, new, rfl, hkept, hnew, hserial⟩ := h₁
  obtain ⟨kept', new', rfl, hkept', hnew', hserial'⟩ := h₂
  obtain ⟨a, b, rfl, ha, hb⟩ := sublist_append_iff.mp hkept'
  refine ⟨a, b ++ new', by rw [append_assoc], ha.trans hkept, ?_, ?_⟩
  · refine pairwise_append.mpr ⟨hnew.sublist hb, hnew', fun x hx y hy => ?_⟩
    exact (hserial x (hb.subset hx)).2.trans_le (hserial' y hy).1
  · intro e he
    rcases mem_append.mp he with he | he
    · have := hserial e (hb.subset he)
      omega
    · have := hserial' e he
      omega

theorem mem {n n' : ℕ} (h : Extends n n' earlier later) {e : Event}
    (he : e ∈ later) : e ∈ earlier ∨ n ≤ e.serial ∧ e.serial < n' := by
  obtain ⟨kept, new, rfl, hkept, -, hserial⟩ := h
  rcases mem_append.mp he with he | he
  · exact Or.inl (hkept.subset he)
  · exact Or.inr (hserial e he)

theorem pairwise {n n' : ℕ} (h : Extends n n' earlier later)
    (hearlier : earlier.Pairwise fun a b => a.serial < b.serial)
    (hlt : ∀ e ∈ earlier, e.serial < n) : later.Pairwise fun a b => a.serial < b.serial := by
  obtain ⟨kept, new, rfl, hkept, hnew, hserial⟩ := h
  refine pairwise_append.mpr ⟨hearlier.sublist hkept, hnew, fun x hx y hy => ?_⟩
  exact (hlt x (hkept.subset hx)).trans_le (hserial y hy).1

end Extends

theorem insertEvent_of_lt {e : Event} {events : List Event} (h : ∀ a ∈ events, a.ptr < e.ptr) :
    insertEvent e events = events ++ [e] := by
  induction events with
  | nil => rfl
  | cons a events ih =>
    obtain ⟨ha, hevents⟩ := forall_mem_cons.mp h
    rw [insertEvent, if_neg ha.not_gt, if_neg ha.ne', ih hevents, cons_append]

theorem insertEvent_append_self {e : Event} {events : List Event}
    (h : ∀ a ∈ events, a.ptr < e.ptr) : insertEvent e (events ++ [e]) = events ++ [e] := by
  induction events with
  | nil => rw [nil_append, insertEvent, if_neg (lt_irrefl _), if_pos rfl]
  | cons a events ih =>
    obtain ⟨ha, hevents⟩ := forall_mem_cons.mp h
    rw [cons_append, insertEvent, if_neg ha.not_gt, if_neg ha.ne', ih hevents]

namespace PubMaps

variable {κ : Type} [DecidableEq κ]

def Appended (p p' : PubMaps κ) (e : Event) : Prop :=
  ∀ k, p'.messages k = p.messages k ∨ p'.messages k = p.messages k ++ [e]

theorem Appended.insert {p p' : PubMaps κ} {e : Event} (h : p.Appended p' e)
    (hptr : ∀ k, ∀ a ∈ p.messages k, a.ptr < e.ptr) (k : κ) : p.Appended (p'.insert e k) e := by
  intro k'
  by_cases hk : k' = k
  · subst hk
    right
    rcases h k' with heq | heq
    · rw [insert_messages_self, heq, insertEvent_of_lt (hptr k')]
    · rw [insert_messages_self, heq, insertEvent_append_self (hptr k')]
  · rw [insert_messages_of_ne p' e hk]
    exact h k'

omit [DecidableEq κ] in
theorem checkBufferSize_sublist (p : PubMaps κ) (k : κ) :
    (p.checkBufferSize.messages k).Sublist (p.messages k) := by
  rw [checkBufferSize]
  split_ifs
  · exact nil_sublist _
  · exact List.Sublist.refl _

omit [DecidableEq κ] in
theorem Appended.extends {p p' : PubMaps κ} {e : Event} (h : p.checkBufferSize.Appended p' e)
    (k : κ) : Extends e.serial (e.serial + 1) (p.messages k) (p'.messages k) := by
  rcases h k with heq | heq
  · rw [heq]
    exact .of_sublist (p.checkBufferSize_sublist k)
  · rw [heq]
    refine ⟨_, [e], rfl, p.checkBufferSize_sublist k, pairwise_singleton _ _, ?_⟩
    intro a ha
    obtain rfl := mem_singleton.mp ha
    exact ⟨le_rfl, Nat.lt_succ_self _⟩

theorem onMessageSent_sublist (p : PubMaps κ) (m : MsgPtr) (k k' : κ) :
    ((p.onMessageSent m k).messages k').Sublist (p.messages k') := by
  by_cases hk : k' = k
  · subst hk
    rw [onMessageSent_messages_self]
    exact filter_sublist
  · rw [onMessageSent_messages_of_ne p m hk]

theorem onMessageSent_ptr_ne {p : PubMaps κ} {m : MsgPtr} {k : κ} {a : Event}
    (ha : a ∈ (p.onMessageSent m k).messages k) : a.ptr ≠ m := by
  rw [onMessageSent_messages_self, eraseEvent, mem_filter] at ha
  simpa using ha.2

end PubMaps

namespace Broker

variable (cfg : Config)

def pending (b : Broker) (h : HandlerPtr) (id : ClientId) : List Event :=
  if cfg.enableBuffering then b.manager.pubs_.messages id else b.manager.pubs.messages h

structure Advances (b b' : Broker) : Prop where
  sent : b'.sent = b.sent
  connections : b'.connections = b.connections
  received : b.received ≤ b'.received
  handlers : ∀ h sh', b'.subscriberHandlers h = some sh' →
    ∃ sh, b.subscriberHandlers h = some sh ∧ sh'.connection = sh.connection
  pending : ∀ h id,
    Extends b.received b'.received (pending cfg b h id) (pending cfg b' h id)

variable {cfg} {b b' b'' : Broker}

theorem handlers_trans
    (h : ∀ p sh', b'.subscriberHandlers p = some sh' →
      ∃ sh, b.subscriberHandlers p = some sh ∧ sh'.connection = sh.connection)
    (h' : ∀ p sh'', b''.subscriberHandlers p = some sh'' →
      ∃ sh', b'.subscriberHandlers p = some sh' ∧ sh''.connection = sh'.connection)
    (p : HandlerPtr) (sh'' : SubscriberHandler) (hsh'' : b''.subscriberHandlers p = some sh'') :
    ∃ sh, b.subscriberHandlers p = some sh ∧ sh''.connection = sh.connection := by
  obtain ⟨sh', hsh', hconn'⟩ := h' p sh'' hsh''
  obtain ⟨sh, hsh, hconn⟩ := h p sh' hsh'
  exact ⟨sh, hsh, hconn'.trans hconn⟩

namespace Advances

theorem refl (b : Broker) : Advances cfg b b where
  sent := rfl
  connections := rfl
  received := le_rfl
  handlers := fun _ sh hsh => ⟨sh, hsh, rfl⟩
  pending := fun _ _ => .of_sublist (List.Sublist.refl _)

theorem trans (h : Advances cfg b b') (h' : Advances cfg b' b'') : Advances cfg b b'' where
  sent := h'.sent.trans h.sent
  connections := h'.connections.trans h.connections
  received := h.received.trans h'.received
  handlers := handlers_trans h.handlers h'.handlers
  pending := fun p id => (h.pending p id).trans (h'.pending p id) h.received h'.received

theorem of_manager (b : Broker) {tm : TopicManager} (hpubs_ : tm.pubs_ = b.manager.pubs_)
    (hpubs : tm.pubs = b.manager.pubs) : Advances cfg b { b with manager := tm } where
  sent := rfl
  connections := rfl
  received := le_rfl
  handlers := fun _ sh hsh => ⟨sh, hsh, rfl⟩
  pending := by
    intro h id
    rw [Broker.pending, Broker.pending, hpubs_, hpubs]
    exact .of_sublist (List.Sublist.refl _)

theorem of_setSubscriber {h : HandlerPtr} {sh sh' : SubscriberHandler}
    (hsh : b.subscriberHandlers h = some sh) (hconn : sh'.connection = sh.connection) :
    Advances cfg b (b.setSubscriber h (some sh')) where
  sent := rfl
  connections := rfl
  received := le_rfl
  handlers := by
    intro h' sh'' hsh''
    by_cases hh : h' = h
    · subst hh
      rw [setSubscriber_self] at hsh''
      cases hsh''
      exact ⟨sh, hsh, hconn⟩
    · rw [setSubscriber_of_ne b hh] at hsh''
      exact ⟨sh'', hsh'', rfl⟩
  pending := fun _ _ => .of_sublist (List.Sublist.refl _)

theorem of_removeSubscriber (b : Broker) (h : HandlerPtr) :
    Advances cfg b (b.setSubscriber h none) where
  sent := rfl
  connections := rfl
  received := le_rfl
  handlers := by
    intro h' sh' hsh'
    by_cases hh : h' = h
    · subst hh
      rw [setSubscriber_self] at hsh'
      cases hsh'
    · rw [setSubscriber_of_ne b hh] at hsh'
      exact ⟨sh', hsh', rfl⟩
  pending := fun _ _ => .of_sublist (List.Sublist.refl _)

theorem of_setPublisher (b : Broker) (h : HandlerPtr) (ph : Option PublisherHandler) :
    Advances cfg b (b.setPublisher h ph) where
  sent := rfl
  connections := rfl
  received := le_rfl
  handlers := fun _ sh hsh => ⟨sh, hsh, rfl⟩
  pending := fun _ _ => .of_sublist (List.Sublist.refl _)

theorem of_registerWriteMask (b : Broker) (h : HandlerPtr) :
    Advances cfg b (b.registerWriteMask h) := by
  rw [registerWriteMask]
  cases hsh : b.subscriberHandlers h with
  | none => exact .refl b
  | some sh => exact .of_setSubscriber hsh rfl

end Advances

theorem chooseId_pubs {tm tm' : TopicManager} {subscriberId id : ClientId}
    (h : chooseId tm subscriberId = .ok (id, tm')) :
    tm'.pubs_ = tm.pubs_ ∧ tm'.pubs = tm.pubs := by
  obtain ⟨n, rfl⟩ := chooseId_eq h
  exact ⟨rfl, rfl⟩

variable {h : HandlerPtr}

theorem subscribe_pubs {tm tm' : TopicManager} {sh : SubscriberHandler} {msg : Msg}
    {id : ClientId} (hs : subscribe cfg tm h sh msg = .ok (id, tm')) :
    tm'.pubs_ = tm.pubs_ ∧ tm'.pubs = tm.pubs := by
  rw [subscribe] at hs
  split_ifs at hs
  · obtain ⟨⟨id', tm₁⟩, hid, hs⟩ := bind_eq_ok.mp hs
    obtain ⟨tm₂, hadd, hs⟩ := bind_eq_ok.mp hs
    obtain ⟨-, -, hadd⟩ := bind_eq_ok.mp hadd
    obtain ⟨-, -, hadd⟩ := bind_eq_ok.mp hadd
    cases hadd
    cases hs
    obtain ⟨hpubs_, hpubs⟩ := chooseId_pubs hid
    exact ⟨hpubs_, hpubs⟩
  · obtain ⟨tm₁, hadd, hs⟩ := bind_eq_ok.mp hs
    obtain ⟨-, -, hadd⟩ := bind_eq_ok.mp hadd
    cases hadd
    cases hs
    exact ⟨rfl, rfl⟩

theorem unSubscribe_pubs (cfg : Config) (tm : TopicManager) (h : HandlerPtr)
    (sh : SubscriberHandler) (msg : Msg) :
    (unSubscribe cfg tm h sh msg).pubs_ = tm.pubs_ ∧
      (unSubscribe cfg tm h sh msg).pubs = tm.pubs := by
  rw [unSubscribe]
  split_ifs <;> exact ⟨rfl, rfl⟩

section Readable

variable {env : Answers} {h : HandlerPtr} {sh : SubscriberHandler} {msg : Msg} {ok : Bool}

theorem onSubscribe_advances (hsh : b.subscriberHandlers h = some sh)
    (hrun : onSubscribe cfg env b h sh msg = .ok (ok, b')) : Advances cfg b b' := by
  obtain ⟨⟨id, tm⟩, htm, hrun⟩ := bind_eq_ok.mp hrun
  obtain ⟨⟨ok', bytes⟩, -, hrun⟩ := bind_eq_ok.mp hrun
  cases hrun
  obtain ⟨hpubs_, hpubs⟩ := subscribe_pubs htm
  have hset : Advances cfg b
      (({ b with manager := tm } : Broker).setSubscriber h (some { sh with id := id })) :=
    (Advances.of_manager b hpubs_ hpubs).trans (.of_setSubscriber hsh rfl)
  split_ifs
  · exact hset.trans (.of_registerWriteMask _ h)
  · exact hset

theorem onUnSubscribe_advances (hrun : onUnSubscribe cfg env b h sh msg = .ok (ok, b')) :
    Advances cfg b b' := by
  obtain ⟨-, -, hrun⟩ := bind_eq_ok.mp hrun
  obtain ⟨⟨ok', bytes⟩, -, hrun⟩ := bind_eq_ok.mp hrun
  cases hrun
  obtain ⟨hpubs_, hpubs⟩ := unSubscribe_pubs cfg b.manager h sh msg
  exact .of_manager b hpubs_ hpubs

theorem onSubscriberMessage_advances (hsh : b.subscriberHandlers h = some sh)
    (hrun : onSubscriberMessage cfg env b h sh msg = .ok (ok, b')) : Advances cfg b b' := by
  rcases onSubscriberMessage_cases hrun with ⟨-, hsubscribe⟩ | ⟨-, rfl⟩ | ⟨-, hunSubscribe⟩
  · exact onSubscribe_advances hsh hsubscribe
  · exact .refl _
  · exact onUnSubscribe_advances hunSubscribe

theorem subscriberInput_advances (hsh : b.subscriberHandlers h = some sh)
    (hrun : subscriberInput cfg env b h sh = .ok (ok, b')) : Advances cfg b b' := by
  rcases subscriberInput_cases hrun with ⟨result, msg, tmpMsg, -, -, rfl⟩ | ⟨msg, -, hmsg⟩
  · exact .of_setSubscriber hsh rfl
  · refine .trans ?_ (onSubscriberMessage_advances (setSubscriber_self ..) hmsg)
    exact .of_setSubscriber hsh rfl

end Readable

theorem closeSubscriber_cases {ok : Bool}
    (hrun : closeSubscriber cfg h (ok, b) = .ok b') :
    b' = b ∧ (ok = true ∨ b.subscriberHandlers h = none) ∨
      ∃ tm : TopicManager, tm.pubs_ = b.manager.pubs_ ∧ tm.pubs = b.manager.pubs ∧
        b' = ({ b with manager := tm } : Broker).setSubscriber h none := by
  rw [closeSubscriber] at hrun
  cases ok with
  | true => exact Or.inl ⟨(Except.ok.inj hrun).symm, Or.inl rfl⟩
  | false =>
    cases hsh : b.subscriberHandlers h with
    | none =>
      simp only [hsh] at hrun
      exact Or.inl ⟨(Except.ok.inj hrun).symm, Or.inr rfl⟩
    | some sh =>
      simp only [hsh] at hrun
      obtain ⟨-, -, hrun⟩ := bind_eq_ok.mp hrun
      obtain ⟨map₁, map₂, hdestroyed⟩ := b.manager.onHandlerDestroyed_eq h
      refine Or.inr ⟨_, ?_, ?_, (Except.ok.inj hrun).symm⟩
      · split_ifs
        · rfl
        · rfl
        · rw [hdestroyed]
      · split_ifs
        · rfl
        · rfl
        · rw [hdestroyed]

theorem closeSubscriber_advances {ok : Bool}
    (hrun : closeSubscriber cfg h (ok, b) = .ok b') : Advances cfg b b' := by
  rcases closeSubscriber_cases hrun with ⟨rfl, -⟩ | ⟨tm, hpubs_, hpubs, rfl⟩
  · exact .refl _
  · exact (Advances.of_manager b hpubs_ hpubs).trans (.of_removeSubscriber _ h)

structure Enters (e : Event) (b b' : Broker) : Prop where
  sent : b'.sent = b.sent
  connections : b'.connections = b.connections
  received : b'.received = b.received
  handlers : ∀ h sh', b'.subscriberHandlers h = some sh' →
    ∃ sh, b.subscriberHandlers h = some sh ∧ sh'.connection = sh.connection
  pubs_ : ∀ p : PubMaps ClientId, (∀ k, ∀ a ∈ p.messages k, a.ptr < e.ptr) →
    p.Appended b.manager.pubs_ e → p.Appended b'.manager.pubs_ e
  pubs : ∀ p : PubMaps HandlerPtr, (∀ k, ∀ a ∈ p.messages k, a.ptr < e.ptr) →
    p.Appended b.manager.pubs e → p.Appended b'.manager.pubs e

namespace Enters

variable {e : Event}

theorem refl (b : Broker) : Enters e b b where
  sent := rfl
  connections := rfl
  received := rfl
  handlers := fun _ sh hsh => ⟨sh, hsh, rfl⟩
  pubs_ := fun _ _ h => h
  pubs := fun _ _ h => h

theorem trans (h : Enters e b b') (h' : Enters e b' b'') : Enters e b b'' where
  sent := h'.sent.trans h.sent
  connections := h'.connections.trans h.connections
  received := h'.received.trans h.received
  handlers := handlers_trans h.handlers h'.handlers
  pubs_ := fun p hptr hp => h'.pubs_ p hptr (h.pubs_ p hptr hp)
  pubs := fun p hptr hp => h'.pubs p hptr (h.pubs p hptr hp)

theorem of_registerWriteMask (b : Broker) (h : HandlerPtr) :
    Enters e b (b.registerWriteMask h) := by
  have hadv : Advances ⟨.little, true, 0, 0⟩ b (b.registerWriteMask h) := .of_registerWriteMask b h
  have hmanager := manager_registerWriteMask b h
  have hreceived : (b.registerWriteMask h).received = b.received := by
    rw [registerWriteMask]
    cases b.subscriberHandlers h <;> rfl
  exact ⟨hadv.sent, hadv.connections, hreceived, hadv.handlers, fun _ _ h => hmanager ▸ h,
    fun _ _ h => hmanager ▸ h⟩

theorem addMessageTo_ {ids : List ClientId} (hrun : addMessageTo_ e ids b = .ok b') :
    Enters e b b' := by
  refine addMessageTo_.invariant (I := Enters e b) ?_ ?_ hrun (.refl b)
  · intro b₁ _ h _ henters
    exact henters.trans (.of_registerWriteMask b₁ h)
  · intro b₁ id henters
    exact henters.trans ⟨rfl, rfl, rfl, fun _ sh hsh => ⟨sh, hsh, rfl⟩,
      fun _ hptr happ => happ.insert hptr id, fun _ _ happ => happ⟩

theorem addMessageTo (cfg : Config) (now : ℤ) (e : Event) (hs : List HandlerPtr) (b : Broker) :
    Enters e b (addMessageTo cfg now e hs b) := by
  refine addMessageTo.invariant (I := Enters e b) ?_ ?_ cfg now hs (.refl b)
  · intro b₁ h henters
    exact henters.trans (.of_registerWriteMask b₁ h)
  · intro b₁ h henters
    exact henters.trans ⟨rfl, rfl, rfl, fun _ sh hsh => ⟨sh, hsh, rfl⟩, fun _ _ happ => happ,
      fun _ hptr happ => happ.insert hptr h⟩

end Enters

section Publish

variable {env : Answers} {h : HandlerPtr} {ptr : MsgPtr} {msg : Msg} {ok : Bool}

theorem onPublisherMessage_cases (hrun : onPublisherMessage cfg env b ptr msg = .ok (ok, b')) :
    msg.messageType ≠ MsgType.event.toOctet ∧ b' = b ∨
      msg.messageType = MsgType.event.toOctet ∧ msg.topic ≠ [] ∧
        (cfg.enableBuffering = true ∧ b.addMessage_ ptr msg = .ok b' ∨
          cfg.enableBuffering = false ∧ b' = b.addMessage cfg env.now ptr msg) := by
  rw [onPublisherMessage] at hrun
  split_ifs at hrun with hprobe hpublish hbuf
  · exact .inl ⟨by rw [hprobe]; decide, onKeepAliveProbe_eq hrun⟩
  · obtain ⟨⟨ok', bytes⟩, -, hrun⟩ := bind_eq_ok.mp hrun
    cases hrun
    exact .inl ⟨by rw [hpublish]; decide, rfl⟩
  · obtain ⟨⟨⟩, htype, hrun⟩ := bind_eq_ok.mp hrun
    obtain ⟨⟨⟩, htopic, hrun⟩ := bind_eq_ok.mp hrun
    obtain ⟨b₁, hadd, hrun⟩ := bind_eq_ok.mp hrun
    cases hrun
    exact .inr ⟨require_eq_ok.mp htype, require_eq_ok.mp htopic, .inl ⟨hbuf, hadd⟩⟩
  · obtain ⟨⟨⟩, htype, hrun⟩ := bind_eq_ok.mp hrun
    obtain ⟨⟨⟩, htopic, hrun⟩ := bind_eq_ok.mp hrun
    cases hrun
    exact .inr ⟨require_eq_ok.mp htype, require_eq_ok.mp htopic,
      .inr ⟨eq_false_of_ne_true hbuf, rfl⟩⟩

theorem onPublisherMessage_advances (hptr : ∀ h id, ∀ a ∈ pending cfg b h id, a.ptr < ptr)
    (hrun : onPublisherMessage cfg env b ptr msg = .ok (ok, b')) : Advances cfg b b' := by
  rcases onPublisherMessage_cases hrun with ⟨-, rfl⟩ | ⟨-, -, ⟨hbuf, hadd⟩ | ⟨hbuf, rfl⟩⟩
  · exact .refl b'
  · have henters := Enters.addMessageTo_ hadd
    have hbelow (id : ClientId) (a : Event)
        (ha : a ∈ b.manager.pubs_.checkBufferSize.messages id) : a.ptr < ptr := by
      refine hptr 0 id a ?_
      rw [pending, if_pos hbuf]
      exact (b.manager.pubs_.checkBufferSize_sublist id).subset ha
    have happ := henters.pubs_ _ hbelow fun _ => Or.inl rfl
    refine ⟨henters.sent, henters.connections, ?_, henters.handlers, fun h id => ?_⟩
    · rw [henters.received]
      exact Nat.le_succ _
    · rw [henters.received]
      simp only [pending, hbuf, ↓reduceIte]
      exact happ.extends id
  · have henters := Enters.addMessageTo cfg env.now ⟨ptr, msg, b.received⟩
      (b.manager.subscriptionMap1 msg.topic) { b with
        manager := { b.manager with pubs := b.manager.pubs.checkBufferSize }
        received := b.received + 1 }
    have hbelow (h : HandlerPtr) (a : Event)
        (ha : a ∈ b.manager.pubs.checkBufferSize.messages h) : a.ptr < ptr := by
      refine hptr h [] a ?_
      rw [pending, if_neg (by rw [hbuf]; exact nofun)]
      exact (b.manager.pubs.checkBufferSize_sublist h).subset ha
    have happ := henters.pubs _ hbelow fun _ => Or.inl rfl
    refine ⟨henters.sent, henters.connections, ?_, henters.handlers, fun h id => ?_⟩
    · rw [addMessage, henters.received]
      exact Nat.le_succ _
    · rw [addMessage, henters.received]
      simp only [pending, hbuf, Bool.false_eq_true, ↓reduceIte]
      exact happ.extends h

def AddressOrder (cfg : Config) (b : Broker) : Upcall → Prop
  | .publisherReadable h env =>
    ∀ ph msg, b.publisherHandlers h = some ph →
      parseInput cfg env (ph.msg.map Prod.snd) = .ok (.complete, msg) →
      ∀ h' id, ∀ a ∈ pending cfg b h' id, a.ptr < currentPtr env ph
  | _ => True

theorem publisherInput_advances {ph : PublisherHandler} (hph : b.publisherHandlers h = some ph)
    (hptr : AddressOrder cfg b (.publisherReadable h env))
    (hrun : publisherInput cfg env b h ph = .ok (ok, b')) : Advances cfg b b' := by
  rcases publisherInput_cases hrun with ⟨result, msg, current, -, -, rfl⟩ | ⟨msg, hparse, hmsg⟩
  · exact .of_setPublisher b h _
  · exact (Advances.of_setPublisher b h _).trans
      (onPublisherMessage_advances (hptr ph msg hph hparse) hmsg)

theorem closePublisher_advances (hrun : closePublisher h (ok, b) = .ok b') : Advances cfg b b' := by
  rcases closePublisher_cases hrun with rfl | ⟨ph, -, -, rfl⟩
  · exact .refl _
  · exact .of_setPublisher b h none

end Publish

structure Sends (cfg : Config) (h : HandlerPtr) (sh : SubscriberHandler) (es : List Event)
    (b b' : Broker) : Prop where
  connections : b'.connections = b.connections
  received : b'.received = b.received
  handlers : b'.subscriberHandlers = b.subscriberHandlers
  sent : ∃ new, b'.sent = b.sent ++ new ∧
    (new.map Sent.serial).Sublist (es.map Event.serial) ∧
    ∀ s ∈ new, s.connection = sh.connection ∧ s.id = sh.id
  pending : ∀ h' id, (pending cfg b' h' id).Sublist (pending cfg b h' id)

section Writable

variable {env : Answers} {h : HandlerPtr} {sh : SubscriberHandler} {ok : Bool}

theorem sendMessage_cases {e : Event} {r : SendResult}
    (hrun : sendMessage cfg env b h sh e r = .ok (ok, b')) :
    b' = b ∨
      ∃ bytes, b' = { b with sent := b.sent ++ [⟨sh.connection, sh.id, e.serial, bytes⟩] } := by
  simp only [sendMessage] at hrun
  split_ifs at hrun
  · obtain ⟨-, -, hrun⟩ := bind_eq_ok.mp hrun
    cases r with
    | failed => exact Or.inl (Prod.mk.inj (Except.ok.inj hrun)).2.symm
    | accepted room => exact Or.inr ⟨_, (Prod.mk.inj (Except.ok.inj hrun)).2.symm⟩
  · exact Or.inl (Prod.mk.inj (Except.ok.inj hrun)).2.symm

theorem sendMessage_manager {e : Event} {r : SendResult}
    (hrun : sendMessage cfg env b h sh e r = .ok (ok, b')) : b'.manager = b.manager := by
  rcases sendMessage_cases hrun with rfl | ⟨bytes, rfl⟩ <;> rfl

theorem sendMessages_eq {es : List Event} {rs : ℕ → SendResult}
    (hrun : sendMessages cfg env h sh es rs b = .ok (ok, b')) :
    ∃ pubs_ pubs sent, b' =
      { b with manager := { b.manager with pubs_ := pubs_, pubs := pubs }, sent := sent } := by
  induction es generalizing rs b with
  | nil =>
    cases hrun
    exact ⟨_, _, _, rfl⟩
  | cons e es ih =>
    obtain ⟨⟨ok₁, b₁⟩, hsend, hloop⟩ := bind_eq_ok.mp hrun
    have hfirst : ∃ sent, b₁ = { b with sent := sent } := by
      rcases sendMessage_cases hsend with rfl | ⟨bytes, rfl⟩ <;> exact ⟨_, rfl⟩
    obtain ⟨sent₁, rfl⟩ := hfirst
    cases ok₁ with
    | false =>
      cases hloop
      exact ⟨_, _, _, rfl⟩
    | true =>
      obtain ⟨pubs_, pubs, sent, rfl⟩ := ih hloop
      refine ⟨pubs_, pubs, sent, ?_⟩
      simp only [onMessageSent]
      split_ifs <;> rfl

theorem pending_onMessageSent (b : Broker) (h h' : HandlerPtr) (sh : SubscriberHandler) (e : Event)
    (id : ClientId) :
    (pending cfg (onMessageSent cfg b h sh e) h' id).Sublist (pending cfg b h' id) := by
  simp only [pending, onMessageSent]
  split_ifs
  · exact PubMaps.onMessageSent_sublist ..
  · exact PubMaps.onMessageSent_sublist ..

theorem ptr_ne_of_mem_onMessageSent {e a : Event}
    (ha : a ∈ pending cfg (onMessageSent cfg b h sh e) h sh.id) : a.ptr ≠ e.ptr := by
  simp only [pending, onMessageSent] at ha
  split_ifs at ha
  · exact PubMaps.onMessageSent_ptr_ne ha
  · exact PubMaps.onMessageSent_ptr_ne ha

theorem sendMessages_sends {es : List Event} {rs : ℕ → SendResult}
    (hrun : sendMessages cfg env h sh es rs b = .ok (ok, b')) :
    Sends cfg h sh es b b' ∧
      (ok = true → ∀ a ∈ pending cfg b' h sh.id, ∀ e ∈ es, a.ptr ≠ e.ptr) := by
  induction es generalizing rs b with
  | nil =>
    cases hrun
    exact ⟨⟨rfl, rfl, rfl, ⟨[], (append_nil _).symm, List.Sublist.refl _,
      forall_mem_nil _⟩, fun _ _ => List.Sublist.refl _⟩, fun _ _ _ => forall_mem_nil _⟩
  | cons e es ih =>
    obtain ⟨⟨ok₁, b₁⟩, hsend, hrun⟩ := bind_eq_ok.mp hrun
    have hfirst : Sends cfg h sh [e] b b₁ := by
      rcases sendMessage_cases hsend with rfl | ⟨bytes, rfl⟩
      · exact ⟨rfl, rfl, rfl, ⟨[], (append_nil _).symm, nil_sublist _,
          forall_mem_nil _⟩, fun _ _ => List.Sublist.refl _⟩
      · exact ⟨rfl, rfl, rfl, ⟨_, rfl, List.Sublist.refl _,
          forall_mem_singleton.mpr ⟨rfl, rfl⟩⟩, fun _ _ => List.Sublist.refl _⟩
    obtain ⟨new₁, hnew₁, hserial₁, hconn₁⟩ := hfirst.sent
    cases ok₁ with
    | false =>
      cases hrun
      refine ⟨⟨hfirst.connections, hfirst.received, hfirst.handlers, ⟨new₁, hnew₁, ?_, hconn₁⟩,
        hfirst.pending⟩, nofun⟩
      exact hserial₁.trans (cons_sublist_cons.mpr (nil_sublist _))
    | true =>
      simp only [↓reduceIte] at hrun
      obtain ⟨hrest, hleft⟩ := ih hrun
      obtain ⟨new₂, hnew₂, hserial₂, hconn₂⟩ := hrest.sent
      have hsub (h' : HandlerPtr) (id : ClientId) :
          (pending cfg b' h' id).Sublist (pending cfg (onMessageSent cfg b₁ h sh e) h' id) :=
        hrest.pending h' id
      refine ⟨⟨hrest.connections.trans hfirst.connections, hrest.received.trans hfirst.received,
        hrest.handlers.trans hfirst.handlers, ⟨new₁ ++ new₂, ?_, ?_, ?_⟩, ?_⟩, ?_⟩
      · rw [hnew₂, ← append_assoc, ← hnew₁]
        rfl
      · rw [map_append]
        exact hserial₁.append hserial₂
      · exact forall_mem_append.mpr ⟨hconn₁, hconn₂⟩
      · exact fun h' id => ((hsub h' id).trans (pending_onMessageSent b₁ h h' sh e id)).trans
          (hfirst.pending h' id)
      · intro hok a ha
        refine forall_mem_cons.mpr ⟨?_, hleft hok a ha⟩
        exact ptr_ne_of_mem_onMessageSent ((hsub h sh.id).subset ha)

theorem subscriberOutput_cases (hrun : subscriberOutput cfg env b h sh = .ok (ok, b')) :
    ∃ b₁ sh', Sends cfg h sh (pending cfg b h sh.id) b b₁ ∧
      b' = b₁.setSubscriber h (some sh') ∧ sh'.connection = sh.connection ∧
      (ok = true → pending cfg b' h sh.id = []) := by
  obtain ⟨messages, hmessages, hrun⟩ := bind_eq_ok.mp hrun
  obtain ⟨⟨ok₁, b₁⟩, hsend, hrun⟩ := bind_eq_ok.mp hrun
  cases hrun
  obtain rfl : messages = pending cfg b h sh.id := by
    rw [messagesOf] at hmessages
    rw [pending]
    split_ifs at hmessages ⊢
    · obtain ⟨-, -, hmessages⟩ := bind_eq_ok.mp hmessages
      exact (Except.ok.inj hmessages).symm
    · exact (Except.ok.inj hmessages).symm
  obtain ⟨hsends, hleft⟩ := sendMessages_sends hsend
  refine ⟨b₁, _, hsends, rfl, rfl, fun hok => ?_⟩
  refine eq_nil_iff_forall_not_mem.mpr fun a ha => ?_
  exact hleft hok a ha a ((hsends.pending h sh.id).subset ha) rfl

end Writable

structure InOrder (cfg : Config) (b : Broker) : Prop where
  pending_pairwise : ∀ h id, (pending cfg b h id).Pairwise fun e e' => e.serial < e'.serial
  pending_lt : ∀ h id, ∀ e ∈ pending cfg b h id, e.serial < b.received
  sent_lt : ∀ s ∈ b.sent, s.serial < b.received ∧ s.connection < b.connections
  connection_lt : ∀ h sh, b.subscriberHandlers h = some sh → sh.connection < b.connections
  connection_inj : ∀ h h' sh sh', b.subscriberHandlers h = some sh →
    b.subscriberHandlers h' = some sh' → sh.connection = sh'.connection → h = h'
  sent_before : ∀ h sh, b.subscriberHandlers h = some sh → ∀ id, ∀ e ∈ pending cfg b h id,
    ∀ s ∈ b.sent, s.connection = sh.connection → s.id = id → s.serial < e.serial
  sent_pairwise : b.sent.Pairwise fun s s' =>
    s.connection = s'.connection → s.id = s'.id → s.serial < s'.serial

namespace InOrder

theorem start (cfg : Config) (subscriptionMap : AList fun _ : Topic => List ClientId) (n : ℕ) :
    InOrder cfg (Broker.start subscriptionMap n) := by
  have hpending (h : HandlerPtr) (id : ClientId) :
      pending cfg (Broker.start subscriptionMap n) h id = [] := by
    rw [pending]
    split_ifs <;> rfl
  have hnone (h : HandlerPtr) (sh : SubscriberHandler) :
      (Broker.start subscriptionMap n).subscriberHandlers h ≠ some sh := by
    rw [show (Broker.start subscriptionMap n).subscriberHandlers h = none from rfl]
    exact nofun
  refine ⟨fun h id => ?_, fun h id => ?_, forall_mem_nil _,
    fun h sh hsh => absurd hsh (hnone h sh), fun h _ sh _ hsh => absurd hsh (hnone h sh),
    fun h sh hsh => absurd hsh (hnone h sh), List.Pairwise.nil⟩
  · rw [hpending]
    exact List.Pairwise.nil
  · rw [hpending]
    exact forall_mem_nil _

variable {h : HandlerPtr} {sh : SubscriberHandler}

theorem accept (hI : InOrder cfg b)
    (hsh : sh.connection = b.connections) :
    InOrder cfg { b.setSubscriber h (some sh) with connections := b.connections + 1 } := by
  have hhandlers (p : HandlerPtr) (sh' : SubscriberHandler)
      (hsh' : (b.setSubscriber h (some sh)).subscriberHandlers p = some sh') :
      p = h ∧ sh'.connection = b.connections ∨ b.subscriberHandlers p = some sh' := by
    by_cases hp : p = h
    · subst hp
      rw [setSubscriber_self] at hsh'
      cases hsh'
      exact Or.inl ⟨rfl, hsh⟩
    · rw [setSubscriber_of_ne b hp] at hsh'
      exact Or.inr hsh'
  refine ⟨hI.pending_pairwise, hI.pending_lt, ?_, ?_, ?_, ?_, hI.sent_pairwise⟩
  · exact fun s hs => ⟨(hI.sent_lt s hs).1, (hI.sent_lt s hs).2.trans (Nat.lt_succ_self _)⟩
  · intro p sh' hsh'
    change sh'.connection < b.connections + 1
    rcases hhandlers p sh' hsh' with ⟨-, heq⟩ | hold
    · omega
    · have := hI.connection_lt p sh' hold
      omega
  · intro p q sh₁ sh₂ h₁ h₂ heq
    rcases hhandlers p sh₁ h₁ with ⟨rfl, heq₁⟩ | hold₁
    · rcases hhandlers q sh₂ h₂ with ⟨rfl, -⟩ | hold₂
      · rfl
      · have := hI.connection_lt q sh₂ hold₂
        omega
    · rcases hhandlers q sh₂ h₂ with ⟨rfl, heq₂⟩ | hold₂
      · have := hI.connection_lt p sh₁ hold₁
        omega
      · exact hI.connection_inj p q sh₁ sh₂ hold₁ hold₂ heq
  · intro p sh' hsh' id e he s hs hconn hid
    rcases hhandlers p sh' hsh' with ⟨-, heq⟩ | hold
    · have := (hI.sent_lt s hs).2
      omega
    · exact hI.sent_before p sh' hold id e he s hs hconn hid

theorem advances (hI : InOrder cfg b) (h : Advances cfg b b') : InOrder cfg b' where
  pending_pairwise := fun p id =>
    (h.pending p id).pairwise (hI.pending_pairwise p id) (hI.pending_lt p id)
  pending_lt := by
    intro p id e he
    rcases (h.pending p id).mem he with he | he
    · exact (hI.pending_lt p id e he).trans_le h.received
    · exact he.2
  sent_lt := by
    intro s hs
    rw [h.sent] at hs
    rw [h.connections]
    exact ⟨(hI.sent_lt s hs).1.trans_le h.received, (hI.sent_lt s hs).2⟩
  connection_lt := by
    intro p sh' hsh'
    obtain ⟨sh, hsh, hconn⟩ := h.handlers p sh' hsh'
    rw [hconn, h.connections]
    exact hI.connection_lt p sh hsh
  connection_inj := by
    intro p q sh₁' sh₂' h₁' h₂' heq
    obtain ⟨sh₁, h₁, hconn₁⟩ := h.handlers p sh₁' h₁'
    obtain ⟨sh₂, h₂, hconn₂⟩ := h.handlers q sh₂' h₂'
    exact hI.connection_inj p q sh₁ sh₂ h₁ h₂ (hconn₁.symm.trans (heq.trans hconn₂))
  sent_before := by
    intro p sh' hsh' id e he s hs hconn' hid
    obtain ⟨sh, hsh, hconn⟩ := h.handlers p sh' hsh'
    rw [h.sent] at hs
    rcases (h.pending p id).mem he with he | he
    · exact hI.sent_before p sh hsh id e he s hs (hconn'.trans hconn) hid
    · exact (hI.sent_lt s hs).1.trans_le he.1
  sent_pairwise := by
    rw [h.sent]
    exact hI.sent_pairwise

theorem sends {b₁ : Broker} (hI : InOrder cfg b)
    (hsh : b.subscriberHandlers h = some sh)
    (hsends : Sends cfg h sh (pending cfg b h sh.id) b b₁) (hsent : b'.sent = b₁.sent)
    (hreceived : b'.received = b₁.received) (hconnections : b'.connections = b₁.connections)
    (hpending : ∀ p id, pending cfg b' p id = pending cfg b₁ p id)
    (hhandlers : ∀ p sh', b'.subscriberHandlers p = some sh' →
      (∃ sh, b.subscriberHandlers p = some sh ∧ sh'.connection = sh.connection) ∧
      (p = h → pending cfg b₁ h sh.id = [])) : InOrder cfg b' := by
  obtain ⟨new, hnew, hserial, hconn⟩ := hsends.sent
  rw [hnew] at hsent
  have hsub (p : HandlerPtr) (id : ClientId) :
      (pending cfg b' p id).Sublist (pending cfg b p id) := by
    rw [hpending]
    exact hsends.pending p id
  have hrec : b'.received = b.received := hreceived.trans hsends.received
  have hcons : b'.connections = b.connections := hconnections.trans hsends.connections
  have hwaited (s : Sent) (hs : s ∈ new) : ∃ e ∈ pending cfg b h sh.id, e.serial = s.serial := by
    have := hserial.subset (mem_map_of_mem hs)
    rwa [mem_map] at this
  refine ⟨?_, ?_, ?_, ?_, ?_, ?_, ?_⟩
  · exact fun p id => (hI.pending_pairwise p id).sublist (hsub p id)
  · intro p id e he
    rw [hrec]
    exact hI.pending_lt p id e ((hsub p id).subset he)
  · rw [hsent, hrec, hcons]
    refine forall_mem_append.mpr ⟨hI.sent_lt, fun s hs => ?_⟩
    obtain ⟨e, he, heq⟩ := hwaited s hs
    rw [← heq, (hconn s hs).1]
    exact ⟨hI.pending_lt h sh.id e he, hI.connection_lt h sh hsh⟩
  · intro p sh' hsh'
    obtain ⟨⟨sh₀, hsh₀, hconn₀⟩, -⟩ := hhandlers p sh' hsh'
    rw [hconn₀, hcons]
    exact hI.connection_lt p sh₀ hsh₀
  · intro p q sh₁' sh₂' h₁' h₂' heq
    obtain ⟨⟨sh₁, h₁, hconn₁⟩, -⟩ := hhandlers p sh₁' h₁'
    obtain ⟨⟨sh₂, h₂, hconn₂⟩, -⟩ := hhandlers q sh₂' h₂'
    exact hI.connection_inj p q sh₁ sh₂ h₁ h₂ (hconn₁.symm.trans (heq.trans hconn₂))
  · intro p sh' hsh' id e he s hs hconn' hid
    obtain ⟨⟨sh₀, hsh₀, hconn₀⟩, hdone⟩ := hhandlers p sh' hsh'
    rw [hsent] at hs
    rcases mem_append.mp hs with hs | hs
    · exact hI.sent_before p sh₀ hsh₀ id e ((hsub p id).subset he) s hs (hconn'.trans hconn₀) hid
    · -- an event sent just now: the connection is that of `h`, for whose subscriber nothing waits
      obtain rfl : p = h := hI.connection_inj p h sh₀ sh hsh₀ hsh
        (hconn₀.symm.trans (hconn'.symm.trans (hconn s hs).1))
      rw [← hid, (hconn s hs).2, hpending, hdone rfl] at he
      cases he
  · rw [hsent]
    refine pairwise_append.mpr ⟨hI.sent_pairwise, ?_, fun s hs s' hs' heq hid => ?_⟩
    · have hpair := ((pairwise_map.mpr (hI.pending_pairwise h sh.id)).sublist hserial :
        (new.map Sent.serial).Pairwise (· < ·))
      exact (pairwise_map.mp hpair).imp fun hlt _ _ => hlt
    · obtain ⟨e, he, hserial'⟩ := hwaited s' hs'
      rw [← hserial']
      exact hI.sent_before h sh hsh sh.id e he s hs (heq.trans (hconn s' hs').1)
        (hid.trans (hconn s' hs').2)

theorem write {env : Answers} {ok : Bool} {b₂ : Broker}
    (hI : InOrder cfg b) (hsh : b.subscriberHandlers h = some sh)
    (houtput : subscriberOutput cfg env b h sh = .ok (ok, b₂))
    (hclose : closeSubscriber cfg h (ok, b₂) = .ok b') : InOrder cfg b' := by
  obtain ⟨b₁, sh', hsends, rfl, hconn, hdone⟩ := subscriberOutput_cases houtput
  rcases closeSubscriber_cases hclose with ⟨rfl, hok⟩ | ⟨tm, hpubs_, hpubs, rfl⟩
  · have hsuccess : ok = true := hok.resolve_right (by rw [setSubscriber_self]; exact nofun)
    refine hI.sends hsh hsends rfl rfl rfl (fun _ _ => rfl) fun p sh'' hsh'' => ?_
    by_cases hp : p = h
    · subst hp
      rw [setSubscriber_self] at hsh''
      cases hsh''
      exact ⟨⟨sh, hsh, hconn⟩, fun _ => hdone hsuccess⟩
    · rw [setSubscriber_of_ne b₁ hp, hsends.handlers] at hsh''
      exact ⟨⟨sh'', hsh'', rfl⟩, fun hph => absurd hph hp⟩
  · refine hI.sends hsh hsends rfl rfl rfl (fun p id => ?_) fun p sh'' hsh'' => ?_
    · change (if _ then tm.pubs_.messages id else tm.pubs.messages p) = _
      rw [hpubs_, hpubs]
      rfl
    · by_cases hp : p = h
      · subst hp
        rw [setSubscriber_self] at hsh''
        cases hsh''
      · rw [setSubscriber_of_ne _ hp] at hsh''
        replace hsh'' : (b₁.setSubscriber h (some sh')).subscriberHandlers p = some sh'' := hsh''
        rw [setSubscriber_of_ne b₁ hp, hsends.handlers] at hsh''
        exact ⟨⟨sh'', hsh'', rfl⟩, fun hph => absurd hph hp⟩

theorem step {u : Upcall} (hI : InOrder cfg b) (hu : AddressOrder cfg b u)
    (hrun : Broker.step cfg b u = .ok b') : InOrder cfg b' := by
  cases dispatched_of_step hrun with
  | ignored => exact hI
  | acceptSubscriber => exact hI.accept rfl
  | acceptPublisher => exact hI.advances (.of_setPublisher b _ _)
  | subscriberReadable hsh hinput hclose =>
    exact hI.advances ((subscriberInput_advances hsh hinput).trans
      (closeSubscriber_advances hclose))
  | subscriberWritable hsh _ houtput hclose => exact hI.write hsh houtput hclose
  | publisherReadable hph hinput hclose =>
    exact hI.advances ((publisherInput_advances hph hu hinput).trans
      (closePublisher_advances hclose))

end InOrder

def plainConfig : Config := ⟨.little, false, 3, 10⟩

def frameAnswers (ptr : MsgPtr) (type : MsgType) (body : List UInt8) : Answers where
  now := 0
  junk := 0
  msgPtr := ptr
  heap := fun _ => zeroChunk
  osHeap := fun _ => zeroChunk
  checkHeap := fun _ => zeroChunk
  recvs := fun i => .bytes (if i = 0 then wire 4 body.length ++ [type.toOctet] else body)
  sends := fun _ => .accepted 1000

def subscribed : List Upcall :=
  [.acceptSubscriber 1 (frameAnswers 0 .subscribe []),
    .subscriberReadable 1 (frameAnswers 300 .subscribe
      (encodeString (ascii "t") ++ encodeString (ascii "0"))),
    .acceptPublisher 2]

def eventAt (ptr : MsgPtr) : Upcall :=
  .publisherReadable 2 (frameAnswers ptr .event (encodeString (ascii "t")))

def writable : Upcall := .subscriberWritable 1 (frameAnswers 0 .event [])

end Broker

end Icm.Messaging
