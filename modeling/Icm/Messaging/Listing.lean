import Icm.Messaging.Audience

/-!
# Which handlers are listed under a topic

Without buffering `subscriptionMap1` has the handlers of each topic, and `subscriptionMap2` the
topics of each handler.
-/

namespace Icm.Messaging

open Icm.Lib List Broker Option

structure TopicRequest where
  connection : ℕ
  topic : Topic
  subscribes : Bool
  deriving DecidableEq

def Subscribed (history : List TopicRequest) (c : ℕ) (topic : Topic) : Prop :=
  ∃ before after, history = before ++ ⟨c, topic, true⟩ :: after ∧ ⟨c, topic, false⟩ ∉ after

theorem Subscribed.exists_request {history : List TopicRequest} {c : ℕ} {topic : Topic}
    (h : Subscribed history c topic) : ∃ r ∈ history, r.connection = c := by
  obtain ⟨before, after, rfl, -⟩ := h
  exact ⟨_, mem_append_right _ mem_cons_self, rfl⟩

theorem subscribed_concat {history : List TopicRequest} {r : TopicRequest} {c : ℕ}
    {topic : Topic} :
    Subscribed (history ++ [r]) c topic ↔
      if r.connection = c ∧ r.topic = topic then r.subscribes = true
      else Subscribed history c topic := by
  constructor
  · rintro ⟨before, after, heq, hafter⟩
    rcases eq_nil_or_concat after with rfl | ⟨after, x, rfl⟩
    · obtain ⟨-, rfl⟩ := append_inj' heq rfl |>.imp_right singleton_inj.mp
      simp
    · rw [concat_eq_append] at heq hafter
      rw [← cons_append, ← append_assoc] at heq
      obtain ⟨rfl, rfl⟩ := append_inj' heq rfl |>.imp_right singleton_inj.mp
      obtain ⟨hafter, hr⟩ := not_or.mp (mt mem_append.mpr hafter)
      split_ifs with hsame
      · obtain ⟨rfl, rfl⟩ := hsame
        refine Bool.eq_true_of_not_eq_false fun hfalse => hr (mem_singleton.mpr ?_)
        rw [← hfalse]
      · exact ⟨before, after, rfl, hafter⟩
  · split_ifs with hsame
    · obtain ⟨rfl, rfl⟩ := hsame
      intro htrue
      exact ⟨history, [], by rw [← htrue], not_mem_nil⟩
    · rintro ⟨before, after, rfl, hafter⟩
      refine ⟨before, after ++ [r], by simp, ?_⟩
      rw [mem_append, mem_singleton]
      rintro (hmem | rfl)
      · exact hafter hmem
      · exact hsame ⟨rfl, rfl⟩

namespace Broker

def asRequest (c : ℕ) (msg : Msg) : Option TopicRequest :=
  if msg.messageType = MsgType.subscribe.toOctet then some ⟨c, msg.topic, true⟩
  else if msg.messageType = MsgType.unSubscribe.toOctet then some ⟨c, msg.topic, false⟩
  else none

def requests (cfg : Config) (b : Broker) (u : Upcall) : List TopicRequest :=
  ((request cfg b u).bind fun p => asRequest p.1 p.2).toList

theorem mem_applyRequest {c₀ c : ℕ} {msg : Msg} {topic : Topic} {subs : List (ℕ × Topic)}
    {history : List TopicRequest} (h : (c, topic) ∈ subs ↔ Subscribed history c topic) :
    (c, topic) ∈ applyRequest c₀ msg subs ↔
      Subscribed (history ++ (asRequest c₀ msg).toList) c topic := by
  rw [applyRequest, asRequest]
  split_ifs with hsubscribe hunSubscribe
  · rw [toList_some, subscribed_concat, mem_insert_iff, Prod.mk.injEq]
    split_ifs with hsame
    · exact iff_of_true (Or.inl ⟨hsame.1.symm, hsame.2.symm⟩) rfl
    · rw [h]
      exact or_iff_right fun hc => hsame ⟨hc.1.symm, hc.2.symm⟩
  · rw [toList_some, subscribed_concat, mem_filter, decide_eq_true_iff, ne_eq,
      Prod.mk.injEq]
    split_ifs with hsame
    · exact iff_of_false (fun hc => hc.2 ⟨hsame.1.symm, hsame.2.symm⟩) not_false
    · rw [h]
      exact and_iff_left fun hc => hsame ⟨hc.1.symm, hc.2.symm⟩
  · rwa [toList_none, append_nil]

theorem exists_handler_of_mem_requests {cfg : Config} {b : Broker} {u : Upcall} {r : TopicRequest}
    (hr : r ∈ requests cfg b u) :
    ∃ h sh, b.subscriberHandlers h = some sh ∧ sh.connection = r.connection := by
  obtain ⟨⟨c, msg⟩, hrequest, hasRequest⟩ := bind_eq_some_iff.mp (mem_toList.mp hr)
  have hc : r.connection = c := by
    rw [asRequest] at hasRequest
    split_ifs at hasRequest <;>
    · cases hasRequest
      rfl
  cases u with
  | subscriberReadable h env =>
    rw [request] at hrequest
    split at hrequest
    · cases hrequest
    next sh hsh =>
    split at hrequest
    · cases hrequest
      exact ⟨h, sh, hsh, hc.symm⟩
    · cases hrequest
  | acceptSubscriber h env => cases hrequest
  | acceptPublisher h => cases hrequest
  | subscriberWritable h env => cases hrequest
  | publisherReadable h env => cases hrequest

theorem exists_handler_of_ended {b b' : Broker} {u : Upcall} {c : ℕ} (h : ended b u b' = some c) :
    ∃ p sh, b.subscriberHandlers p = some sh ∧ sh.connection = c ∧
      b'.subscriberHandlers p = none := by
  have hcase (p : HandlerPtr) (h : (if (b'.subscriberHandlers p).isNone then
      (b.subscriberHandlers p).map SubscriberHandler.connection else none) = some c) :
      ∃ p sh, b.subscriberHandlers p = some sh ∧ sh.connection = c ∧
        b'.subscriberHandlers p = none := by
    split_ifs at h with hnone
    obtain ⟨sh, hsh, hc⟩ := map_eq_some_iff.mp h
    exact ⟨p, sh, hsh, hc, isNone_iff_eq_none.mp hnone⟩
  cases u with
  | subscriberReadable p env => exact hcase p h
  | subscriberWritable p env => exact hcase p h
  | acceptSubscriber p env => cases h
  | acceptPublisher p => cases h
  | publisherReadable p env => cases h

end Broker

theorem Roster.Reaches.connections {r r' : Roster} (h : r.Reaches r') :
    r'.connections = r.connections := by
  induction h with
  | refl => rfl
  | tail _ hstep ih => cases hstep <;> exact ih

structure Chronicle where
  broker : Broker
  history : List TopicRequest

namespace Chronicle

def step (cfg : Config) (s : Chronicle) (u : Upcall) : Except Assertion Chronicle :=
  (Broker.step cfg s.broker u).map fun b => ⟨b, s.history ++ Broker.requests cfg s.broker u⟩

def start (subscriptionMap : AList fun _ : Topic => List ClientId) (nextAllocateClientId : ℕ) :
    Chronicle :=
  ⟨Broker.start subscriptionMap nextAllocateClientId, []⟩

/-- The invariant: the subscriptions of the abstract machine are those of the history, as far as the
connections have not ended. -/
structure Tracks (s : Chronicle) (subs : List (ℕ × Topic)) : Prop where
  roster : (s.broker.roster subs).Wf
  past : ∀ r ∈ s.history, r.connection < s.broker.connections
  agrees : ∀ h sh topic, s.broker.subscriberHandlers h = some sh →
    ((sh.connection, topic) ∈ subs ↔ Subscribed s.history sh.connection topic)

namespace Tracks

variable {cfg : Config} {s s' : Chronicle} {u : Upcall} {subs : List (ℕ × Topic)}

theorem start (subscriptionMap : AList fun _ : Topic => List ClientId)
    (nextAllocateClientId : ℕ) :
    (Chronicle.start subscriptionMap nextAllocateClientId).Tracks [] where
  roster := (Watched.Fair.start subscriptionMap nextAllocateClientId).roster
  past := forall_mem_nil _
  agrees := fun _ _ _ hsh => nomatch hsh

section

variable (hs : s.Tracks subs)
include hs

theorem mem_subscriptionsAfter {b' : Broker} {h : HandlerPtr}
    {sh sh' : SubscriberHandler} (hsh : s.broker.subscriberHandlers h = some sh)
    (hsh' : b'.subscriberHandlers h = some sh') (topic : Topic) :
    (sh.connection, topic) ∈ subscriptionsAfter cfg s.broker u b' subs ↔
      Subscribed (s.history ++ requests cfg s.broker u) sh.connection topic := by
  have hrequested : (sh.connection, topic) ∈ (request cfg s.broker u).elim subs
      (fun p => applyRequest p.1 p.2 subs) ↔
      Subscribed (s.history ++ requests cfg s.broker u) sh.connection topic := by
    rw [requests]
    cases request cfg s.broker u with
    | none =>
      rw [bind_none, toList_none, append_nil]
      exact hs.agrees h sh topic hsh
    | some p => exact mem_applyRequest (hs.agrees h sh topic hsh)
  rw [subscriptionsAfter, ← hrequested]
  cases hended : ended s.broker u b' with
  | none => rfl
  | some c =>
    -- another handler is gone, and its connection has another number
    obtain ⟨p, psh, hpsh, rfl, hnone⟩ := exists_handler_of_ended hended
    have hne : sh.connection ≠ psh.connection := by
      intro heq
      have hp := hs.roster.connection_inj h p sh.connection (roster_connection hsh)
        ((roster_connection hpsh).trans (congrArg some heq.symm))
      rw [hp, hnone] at hsh'
      cases hsh'
    rw [elim_some, mem_filter]
    exact and_iff_left (decide_eq_true hne)

theorem not_subscribed_new (topic : Topic) :
    (s.broker.connections, topic) ∉ subs ∧ ¬ Subscribed s.history s.broker.connections topic := by
  constructor
  · intro hmem
    obtain ⟨h, hc⟩ := hs.roster.connected _ hmem
    exact lt_irrefl _ (hs.roster.connection_lt h _ hc)
  · intro hsub
    obtain ⟨r, hr, hc⟩ := hsub.exists_request
    exact lt_irrefl _ (hc ▸ hs.past r hr)

theorem agrees_step (hbuf : cfg.enableBuffering = false) {b' : Broker}
    (hstep : Broker.step cfg s.broker u = .ok b') (h : HandlerPtr) (sh' : SubscriberHandler)
    (topic : Topic) (hsh' : b'.subscriberHandlers h = some sh') :
    (sh'.connection, topic) ∈ subscriptionsAfter cfg s.broker u b' subs ↔
      Subscribed (s.history ++ Broker.requests cfg s.broker u) sh'.connection topic := by
  rcases Broker.handler_of_step hbuf hstep hsh' with ⟨sh, hsh, hc⟩ | ⟨hnone, env, rfl⟩
  · rw [← hc]
    exact hs.mem_subscriptionsAfter hsh hsh' topic
  · have hc : sh'.connection = s.broker.connections := by
      rw [Broker.step] at hstep
      split_ifs at hstep with hfree
      · cases hstep
        have hself := setSubscriber_self s.broker h
          (some ⟨s.broker.connections, noId, none, env.now, false⟩)
        exact congrArg SubscriberHandler.connection (some.inj (hsh'.symm.trans hself))
      · cases hstep
        rw [hnone] at hsh'
        cases hsh'
    obtain ⟨hsubs, hhistory⟩ := hs.not_subscribed_new topic
    have hsame : s.history ++ requests cfg s.broker (.acceptSubscriber h env) = s.history :=
      append_nil _
    rw [hc, hsame]
    exact iff_of_false hsubs hhistory

theorem step (hbuf : cfg.enableBuffering = false)
    (hrun : s.step cfg u = .ok s') :
    s'.Tracks (Broker.subscriptionsAfter cfg s.broker u s'.broker subs) := by
  obtain ⟨b', hstep, rfl⟩ := map_eq_ok.mp hrun
  have hpast (n : ℕ) (hn : s.broker.connections ≤ n) :
      ∀ r ∈ s.history ++ requests cfg s.broker u, r.connection < n := by
    refine forall_mem_append.mpr ⟨fun r hr => (hs.past r hr).trans_le hn, fun r hr => ?_⟩
    obtain ⟨h, sh, hsh, hc⟩ := exists_handler_of_mem_requests hr
    exact hc ▸ (hs.roster.connection_lt h _ (Broker.roster_connection hsh)).trans_le hn
  have hagrees := hs.agrees_step hbuf hstep
  rcases Broker.step_roster subs hbuf hstep with ⟨h, env, rfl, hnone, heq⟩ | hreaches
  · exact ⟨heq ▸ hs.roster.accept hnone,
      hpast _ ((Nat.le_succ _).trans_eq (congrArg Roster.connections heq).symm), hagrees⟩
  · exact ⟨hs.roster.reaches hreaches, hpast _ hreaches.connections.ge, hagrees⟩

end

end Tracks

/-- **The handlers listed under a topic.** -/
theorem listed_iff (cfg : Config) (hbuf : cfg.enableBuffering = false)
    (subscriptionMap : AList fun _ : Topic => List ClientId) (nextAllocateClientId : ℕ)
    (us : List Upcall) (s : Chronicle)
    (hrun : runSteps (step cfg) (start subscriptionMap nextAllocateClientId) us = .ok s)
    (topic : Topic) (h : HandlerPtr) :
    h ∈ s.broker.manager.subscriptionMap1 topic ↔
      ∃ sh, s.broker.subscriberHandlers h = some sh ∧
        Subscribed s.history sh.connection topic := by
  obtain ⟨subs, hs⟩ : ∃ subs, s.Tracks subs :=
    runSteps_invariant (I := fun s => ∃ subs, s.Tracks subs)
      (fun _ _ _ ⟨_, hs⟩ _ hstep => ⟨_, hs.step hbuf hstep⟩) ⟨[], Tracks.start ..⟩
      (eachStep_true _ us) hrun
  refine (hs.roster.listed topic h).trans ⟨?_, ?_⟩
  · rintro ⟨c, hc, hmem⟩
    obtain ⟨sh, hsh, rfl⟩ := map_eq_some_iff.mp hc
    exact ⟨sh, hsh, (hs.agrees h sh topic hsh).mp hmem⟩
  · rintro ⟨sh, hsh, hsub⟩
    exact ⟨sh.connection, roster_connection hsh, (hs.agrees h sh topic hsh).mpr hsub⟩

theorem listed_iff_reused :
    ∃ s, runSteps (step plainConfig) (start ∅ 1)
        (subscribed ++ [Traced.endOf 1, Traced.connectOn 1,
          Watched.subscribeTo 1 (ascii "u")]) = .ok s ∧
      s.broker.manager.subscriptionMap1 (ascii "t") = [] ∧
      s.broker.manager.subscriptionMap1 (ascii "u") = [1] ∧
      ∃ sh, s.broker.subscriberHandlers 1 = some sh ∧
        Subscribed s.history sh.connection (ascii "u") := by
  have hstate : (runSteps (step plainConfig) (start ∅ 1)
      (subscribed ++ [Traced.endOf 1, Traced.connectOn 1,
        Watched.subscribeTo 1 (ascii "u")])).map
      (fun s => (s.broker.manager.subscriptionMap1 (ascii "t"),
        s.broker.manager.subscriptionMap1 (ascii "u"))) = .ok ([], [1]) := by decide +kernel
  obtain ⟨s, hrun, heq⟩ := map_eq_ok.mp hstate
  obtain ⟨ht, hu⟩ := Prod.mk.inj heq
  refine ⟨s, hrun, ht, hu, ?_⟩
  exact (listed_iff plainConfig rfl ∅ 1 _ s hrun (ascii "u") 1).mp
    (by rw [hu]; exact mem_singleton_self 1)

end Chronicle

end Icm.Messaging
