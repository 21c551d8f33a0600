import Icm.Messaging.Pending
import Icm.Messaging.Registry

/-!
# Who gets an event without buffering

Without buffering the topic manager keeps the handlers that subscribed to a topic in
`subscriptionMap1`, and the topics of a handler in `subscriptionMap2`.
-/

namespace Icm.Messaging

open Icm.Lib Icm.Stream Function List Broker Option SubscriberHandler

def eraseFrom (h : HandlerPtr) (topics : List Topic) (map₁ : Topic → List HandlerPtr) :
    Topic → List HandlerPtr :=
  topics.foldl (fun map₁ topic => update map₁ topic ((map₁ topic).erase h)) map₁

theorem TopicManager.onHandlerDestroyed_maps (tm : TopicManager) (h : HandlerPtr) :
    tm.onHandlerDestroyed h =
      { tm with
        subscriptionMap1 := eraseFrom h (tm.subscriptionMap2 h) tm.subscriptionMap1
        subscriptionMap2 := update tm.subscriptionMap2 h [] } := by
  have hfold (topics : List Topic) (tm : TopicManager) :
      topics.foldl (fun tm topic => tm.removeSubscription topic h) tm =
        { tm with subscriptionMap1 := eraseFrom h topics tm.subscriptionMap1 } := by
    induction topics generalizing tm with
    | nil => rfl
    | cons topic topics ih => exact ih (tm.removeSubscription topic h)
  rw [onHandlerDestroyed, hfold]

variable {map₁ : Topic → List HandlerPtr}

theorem nodup_eraseFrom (h : HandlerPtr) (topics : List Topic)
    (hnodup : ∀ topic, (map₁ topic).Nodup) (topic : Topic) :
    (eraseFrom h topics map₁ topic).Nodup := by
  induction topics generalizing map₁ with
  | nil => exact hnodup topic
  | cons t topics ih =>
    have hupdate (topic : Topic) : (update map₁ t ((map₁ t).erase h) topic).Nodup := by
      by_cases ht : topic = t
      · rw [ht, update_self]
        exact (hnodup t).erase h
      · rw [update_of_ne ht]
        exact hnodup topic
    exact ih hupdate

theorem mem_eraseFrom (h p : HandlerPtr) (topics : List Topic)
    (hnodup : ∀ topic, (map₁ topic).Nodup) (topic : Topic) :
    p ∈ eraseFrom h topics map₁ topic ↔ p ∈ map₁ topic ∧ ¬ (p = h ∧ topic ∈ topics) := by
  induction topics generalizing map₁ with
  | nil => simp [eraseFrom]
  | cons t topics ih =>
    have hupdate : ∀ topic, (update map₁ t ((map₁ t).erase h) topic).Nodup :=
      nodup_eraseFrom h [t] hnodup
    have hmem : p ∈ update map₁ t ((map₁ t).erase h) topic ↔
        p ∈ map₁ topic ∧ ¬ (p = h ∧ topic = t) := by
      by_cases ht : topic = t
      · rw [ht, update_self, (hnodup t).mem_erase_iff]
        tauto
      · rw [update_of_ne ht]
        tauto
    rw [show eraseFrom h (t :: topics) map₁ =
      eraseFrom h topics (update map₁ t ((map₁ t).erase h)) from rfl, ih hupdate, hmem,
      mem_cons]
    tauto

structure Roster where
  map1 : Topic → List HandlerPtr
  map2 : HandlerPtr → List Topic
  connection : HandlerPtr → Option ℕ
  connections : ℕ
  subscriptions : List (ℕ × Topic)

namespace Roster

def accept (r : Roster) (h : HandlerPtr) : Roster :=
  { r with
    connection := update r.connection h (some r.connections)
    connections := r.connections + 1 }

inductive Step : Roster → Roster → Prop
  | subscribe (r : Roster) (h : HandlerPtr) (c : ℕ) (topic : Topic)
      (hc : r.connection h = some c) :
      Step r { r with
        map1 := update r.map1 topic ((r.map1 topic).insert h)
        map2 := update r.map2 h ((r.map2 h).insert topic)
        subscriptions := r.subscriptions.insert (c, topic) }
  | unSubscribe (r : Roster) (h : HandlerPtr) (c : ℕ) (topic : Topic)
      (hc : r.connection h = some c) :
      Step r { r with
        map1 := update r.map1 topic ((r.map1 topic).erase h)
        subscriptions := r.subscriptions.filter (· ≠ (c, topic)) }
  | destroy (r : Roster) (h : HandlerPtr) (c : ℕ) (hc : r.connection h = some c) :
      Step r { r with
        map1 := eraseFrom h (r.map2 h) r.map1
        map2 := update r.map2 h []
        connection := update r.connection h none
        subscriptions := r.subscriptions.filter (·.1 ≠ c) }

abbrev Reaches : Roster → Roster → Prop := Relation.ReflTransGen Step

theorem reaches_of_eq {r r' : Roster} (h : r' = r) : r.Reaches r' := h ▸ .refl

/-- The invariant: the handlers of a topic are those whose connection is subscribed to it. -/
structure Wf (r : Roster) : Prop where
  nodup : ∀ topic, (r.map1 topic).Nodup
  listed : ∀ topic h, h ∈ r.map1 topic ↔
    ∃ c, r.connection h = some c ∧ (c, topic) ∈ r.subscriptions
  known : ∀ topic, ∀ h ∈ r.map1 topic, topic ∈ r.map2 h
  connection_lt : ∀ h c, r.connection h = some c → c < r.connections
  connection_inj : ∀ h h' c, r.connection h = some c → r.connection h' = some c → h = h'
  connected : ∀ s ∈ r.subscriptions, ∃ h, r.connection h = some s.1

variable {r r' : Roster} {h : HandlerPtr} {c : ℕ} {topic : Topic}

namespace Wf

section

variable (hr : r.Wf)
include hr

theorem listed_of_connection (hc : r.connection h = some c) :
    h ∈ r.map1 topic ↔ (c, topic) ∈ r.subscriptions := by
  rw [hr.listed, hc]
  exact ⟨fun ⟨_, hc', hmem⟩ => some.inj hc' ▸ hmem, fun hmem => ⟨c, rfl, hmem⟩⟩

theorem accept (hnone : r.connection h = none) : (r.accept h).Wf where
  nodup := hr.nodup
  listed := by
    intro topic p
    by_cases hp : p = h
    · subst hp
      rw [show (r.accept p).connection p = some r.connections from update_self ..]
      constructor
      · intro hmem
        obtain ⟨c, hc, -⟩ := (hr.listed topic p).mp hmem
        rw [hnone] at hc
        cases hc
      · rintro ⟨c, hc, hmem⟩
        cases hc
        obtain ⟨q, hq⟩ := hr.connected _ hmem
        exact absurd (hr.connection_lt q _ hq) (lt_irrefl _)
    · rw [show (r.accept h).connection p = r.connection p from update_of_ne hp ..]
      exact hr.listed topic p
  known := hr.known
  connection_lt := by
    intro p c hc
    obtain ⟨-, ⟨⟩⟩ | ⟨-, hc⟩ := Registry.handlers_update hc
    · exact Nat.lt_succ_self _
    · exact (hr.connection_lt p c hc).trans (Nat.lt_succ_self _)
  connection_inj := by
    intro p q c hp hq
    obtain ⟨rfl, hp'⟩ | ⟨-, hp'⟩ := Registry.handlers_update hp <;>
      obtain ⟨rfl, hq'⟩ | ⟨-, hq'⟩ := Registry.handlers_update hq
    · rfl
    · exact absurd (hr.connection_lt q c hq') (some.inj hp').le.not_gt
    · exact absurd (hr.connection_lt p c hp') (some.inj hq').le.not_gt
    · exact hr.connection_inj p q c hp' hq'
  connected := by
    intro s hs
    obtain ⟨p, hp⟩ := hr.connected s hs
    have hne : p ≠ h := by
      rintro rfl
      rw [hnone] at hp
      cases hp
    exact ⟨p, (update_of_ne hne ..).trans hp⟩

theorem subscribe (hc : r.connection h = some c) :
    Wf { r with
      map1 := update r.map1 topic ((r.map1 topic).insert h)
      map2 := update r.map2 h ((r.map2 h).insert topic)
      subscriptions := r.subscriptions.insert (c, topic) } where
  nodup := by
    intro t
    dsimp only
    by_cases ht : t = topic
    · rw [ht, update_self]
      exact (hr.nodup topic).insert
    · rw [update_of_ne ht]
      exact hr.nodup t
  listed := by
    intro t p
    simp only [mem_insert_iff, Prod.mk.injEq]
    by_cases ht : t = topic
    · subst ht
      rw [update_self, mem_insert_iff, hr.listed]
      constructor
      · rintro (rfl | ⟨c', hc', hmem⟩)
        · exact ⟨c, hc, Or.inl ⟨rfl, rfl⟩⟩
        · exact ⟨c', hc', Or.inr hmem⟩
      · rintro ⟨c', hc', ⟨rfl, -⟩ | hmem⟩
        · exact Or.inl (hr.connection_inj p h c' hc' hc)
        · exact Or.inr ⟨c', hc', hmem⟩
    · rw [update_of_ne ht, hr.listed]
      simp only [ht, and_false, false_or]
  known := by
    intro t p hp
    dsimp only at hp ⊢
    by_cases hph : p = h
    · subst hph
      rw [update_self, mem_insert_iff]
      by_cases ht : t = topic
      · exact Or.inl ht
      · rw [update_of_ne ht] at hp
        exact Or.inr (hr.known t p hp)
    · rw [update_of_ne hph]
      refine hr.known t p ?_
      by_cases ht : t = topic
      · subst ht
        rw [update_self, mem_insert_iff] at hp
        exact hp.resolve_left hph
      · rwa [update_of_ne ht] at hp
  connection_lt := hr.connection_lt
  connection_inj := hr.connection_inj
  connected := by
    intro s hs
    rcases mem_insert_iff.mp hs with rfl | hs
    · exact ⟨h, hc⟩
    · exact hr.connected s hs

theorem unSubscribe (hc : r.connection h = some c) :
    Wf { r with
      map1 := update r.map1 topic ((r.map1 topic).erase h)
      subscriptions := r.subscriptions.filter (· ≠ (c, topic)) } := by
  have hmem (t : Topic) (p : HandlerPtr) :
      p ∈ update r.map1 topic ((r.map1 topic).erase h) t ↔
        p ∈ r.map1 t ∧ ¬ (p = h ∧ t = topic) := by
    have herase := mem_eraseFrom h p [topic] hr.nodup t
    rwa [mem_singleton] at herase
  refine ⟨nodup_eraseFrom h [topic] hr.nodup, fun t p => ?_,
    fun t p hp => hr.known t p ((hmem t p).mp hp).1, hr.connection_lt, hr.connection_inj,
    fun s hs => hr.connected s (mem_filter.mp hs).1⟩
  rw [hmem, hr.listed]
  simp only [mem_filter, ne_eq, Prod.mk.injEq, decide_not, Bool.not_eq_true',
    decide_eq_false_iff_not]
  constructor
  · rintro ⟨⟨c', hc', hs⟩, hne⟩
    refine ⟨c', hc', hs, ?_⟩
    rintro ⟨rfl, rfl⟩
    exact hne ⟨hr.connection_inj p h c' hc' hc, rfl⟩
  · rintro ⟨c', hc', hs, hne⟩
    refine ⟨⟨c', hc', hs⟩, ?_⟩
    rintro ⟨rfl, rfl⟩
    exact hne ⟨some.inj (hc'.symm.trans hc), rfl⟩

theorem destroy (hc : r.connection h = some c) :
    Wf { r with
      map1 := eraseFrom h (r.map2 h) r.map1
      map2 := update r.map2 h []
      connection := update r.connection h none
      subscriptions := r.subscriptions.filter (·.1 ≠ c) } := by
  have hkeep {p : HandlerPtr} {c' : ℕ}
      (hp : update r.connection h none p = some c') :
      p ≠ h ∧ r.connection p = some c' := by
    obtain ⟨-, ⟨⟩⟩ | hp := Registry.handlers_update hp
    exact hp
  have hmem (t : Topic) (p : HandlerPtr) :
      p ∈ eraseFrom h (r.map2 h) r.map1 t ↔ p ∈ r.map1 t ∧ p ≠ h := by
    rw [mem_eraseFrom _ _ _ hr.nodup]
    refine and_congr_right fun hp => not_congr (and_iff_left_of_imp ?_)
    rintro rfl
    exact hr.known t p hp
  refine ⟨nodup_eraseFrom _ _ hr.nodup, fun t p => ?_, fun t p hp => ?_,
    fun p c' hp => hr.connection_lt p c' (hkeep hp).2,
    fun p q c' hp hq => hr.connection_inj p q c' (hkeep hp).2 (hkeep hq).2, fun s hs => ?_⟩
  · rw [hmem, hr.listed]
    constructor
    · rintro ⟨⟨c', hc', hs⟩, hne⟩
      refine ⟨c', (update_of_ne hne ..).trans hc', mem_filter.mpr ⟨hs, ?_⟩⟩
      refine decide_eq_true fun heq => hne ?_
      exact hr.connection_inj p h c' hc' (hc.trans (congrArg some heq.symm))
    · rintro ⟨c', hc', hs⟩
      exact ⟨⟨c', (hkeep hc').2, (mem_filter.mp hs).1⟩, (hkeep hc').1⟩
  · obtain ⟨hp, hne⟩ := (hmem t p).mp hp
    dsimp only
    rw [update_of_ne hne]
    exact hr.known t p hp
  · obtain ⟨hs, hne⟩ := mem_filter.mp hs
    obtain ⟨p, hp⟩ := hr.connected s hs
    have hph : p ≠ h := by
      rintro rfl
      exact of_decide_eq_true hne (some.inj (hp.symm.trans hc))
    exact ⟨p, (update_of_ne hph ..).trans hp⟩

theorem step (hs : Step r r') : r'.Wf := by
  cases hs with
  | subscribe h c topic hc => exact hr.subscribe hc
  | unSubscribe h c topic hc => exact hr.unSubscribe hc
  | destroy h c hc => exact hr.destroy hc

theorem reaches (hs : r.Reaches r') : r'.Wf := by
  induction hs with
  | refl => exact hr
  | tail _ hstep ih => exact ih.step hstep

end

end Wf

theorem Reaches.connection (hs : r.Reaches r') (hc : r'.connection h = some c) :
    r.connection h = some c := by
  induction hs with
  | refl => exact hc
  | tail _ hstep ih =>
    refine ih ?_
    cases hstep with
    | subscribe => exact hc
    | unSubscribe => exact hc
    | destroy h c' _ =>
      obtain ⟨-, ⟨⟩⟩ | ⟨-, hc⟩ := Registry.handlers_update hc
      exact hc

end Roster

namespace Broker

def roster (b : Broker) (subscriptions : List (ℕ × Topic)) : Roster where
  map1 := b.manager.subscriptionMap1
  map2 := b.manager.subscriptionMap2
  connection := fun h => (b.subscriberHandlers h).map connection
  connections := b.connections
  subscriptions := subscriptions

def request (cfg : Config) (b : Broker) : Upcall → Option (ℕ × Msg)
  | .subscriberReadable h env =>
    match b.subscriberHandlers h with
    | none => none
    | some sh =>
      match parseInput cfg env sh.tmpMsg with
      | .ok (.complete, msg) => some (sh.connection, msg)
      | _ => none
  | _ => none

def ended (b : Broker) (u : Upcall) (b' : Broker) : Option ℕ :=
  match u with
  | .subscriberReadable h _ | .subscriberWritable h _ =>
    if (b'.subscriberHandlers h).isNone then
      (b.subscriberHandlers h).map connection
    else none
  | _ => none

def applyRequest (c : ℕ) (msg : Msg) (subscriptions : List (ℕ × Topic)) : List (ℕ × Topic) :=
  if msg.messageType = MsgType.subscribe.toOctet then subscriptions.insert (c, msg.topic)
  else if msg.messageType = MsgType.unSubscribe.toOctet then
    subscriptions.filter (· ≠ (c, msg.topic))
  else subscriptions

def subscriptionsAfter (cfg : Config) (b : Broker) (u : Upcall) (b' : Broker)
    (subscriptions : List (ℕ × Topic)) : List (ℕ × Topic) :=
  let requested := (request cfg b u).elim subscriptions fun p => applyRequest p.1 p.2 subscriptions
  (ended b u b').elim requested fun c => requested.filter (·.1 ≠ c)

section Refinement

variable {cfg : Config} {env : Answers} {b b' : Broker} {h : HandlerPtr}
  {sh sh' : SubscriberHandler} {msg : Msg} {ok : Bool} {subs : List (ℕ × Topic)}

theorem roster_connection (hsh : b.subscriberHandlers h = some sh) :
    (b.roster subs).connection h = some sh.connection :=
  congrArg (Option.map connection) hsh

theorem roster_setSubscriber (b : Broker) (h : HandlerPtr) (r : Option SubscriberHandler)
    (subs : List (ℕ × Topic)) :
    (b.setSubscriber h r).roster subs =
      { b.roster subs with
        connection := update (b.roster subs).connection h
          (r.map connection) } := by
  simp only [roster, setSubscriber, Registry.map_update]

theorem roster_setSubscriber_same (hsh : b.subscriberHandlers h = some sh)
    (hconn : sh'.connection = sh.connection) :
    (b.setSubscriber h (some sh')).roster subs = b.roster subs := by
  rw [roster_setSubscriber, map_some, hconn,
    update_eq_self_iff.mpr (roster_connection hsh).symm]

theorem roster_registerWriteMask (b : Broker) (h : HandlerPtr) :
    (b.registerWriteMask h).roster subs = b.roster subs := by
  rw [registerWriteMask]
  cases hsh : b.subscriberHandlers h with
  | none => rfl
  | some sh => exact roster_setSubscriber_same hsh rfl

theorem addMessageTo_roster (now : ℤ) (e : Event) (hs : List HandlerPtr) (b : Broker) :
    (addMessageTo cfg now e hs b).roster subs = b.roster subs := by
  refine addMessageTo.invariant (I := fun b' => b'.roster subs = b.roster subs) ?_ ?_ cfg now hs rfl
  · intro b₁ h hroster
    rw [roster_registerWriteMask, hroster]
  · intro b₁ h hroster
    exact hroster

theorem onPublisherMessage_roster {ptr : MsgPtr} (hbuf : cfg.enableBuffering = false)
    (hrun : onPublisherMessage cfg env b ptr msg = .ok (ok, b')) :
    b'.roster subs = b.roster subs := by
  rcases onPublisherMessage_cases hrun with ⟨-, rfl⟩ | ⟨-, -, ⟨hbuffering, -⟩ | ⟨-, rfl⟩⟩
  · rfl
  · exact absurd hbuffering (by rw [hbuf]; exact nofun)
  · rw [addMessage, addMessageTo_roster]
    rfl

theorem publisherInput_roster {ph : PublisherHandler} (hbuf : cfg.enableBuffering = false)
    (hrun : publisherInput cfg env b h ph = .ok (ok, b')) : b'.roster subs = b.roster subs := by
  rcases publisherInput_cases hrun with ⟨result, msg, current, -, -, rfl⟩ | ⟨msg, -, hmsg⟩
  · rfl
  · exact onPublisherMessage_roster (b := b.setPublisher h (some ⟨none⟩)) hbuf hmsg

theorem closePublisher_roster (hrun : closePublisher h (ok, b) = .ok b') :
    b'.roster subs = b.roster subs := by
  rcases closePublisher_cases hrun with rfl | ⟨ph, -, -, rfl⟩ <;> rfl

section

variable (hbuf : cfg.enableBuffering = false) (hsh : b.subscriberHandlers h = some sh)
include hbuf hsh

theorem onSubscribe_roster (hrun : onSubscribe cfg env b h sh msg = .ok (ok, b')) :
    (b.roster subs).Step (b'.roster (subs.insert (sh.connection, msg.topic))) ∧
      (b'.roster subs).connection h = some sh.connection := by
  obtain ⟨⟨id, tm⟩, hsub, hrun⟩ := bind_eq_ok.mp hrun
  obtain ⟨⟨ok', bytes⟩, -, hrun⟩ := bind_eq_ok.mp hrun
  obtain ⟨rfl, rfl⟩ := Prod.mk.inj (Except.ok.inj hrun)
  simp only [subscribe, hbuf, Bool.false_eq_true, ↓reduceIte] at hsub
  obtain ⟨tm', hadd, hsub⟩ := bind_eq_ok.mp hsub
  obtain ⟨rfl, rfl⟩ := Prod.mk.inj (Except.ok.inj hsub)
  obtain ⟨-, -, hadd⟩ := bind_eq_ok.mp hadd
  obtain rfl := Except.ok.inj hadd
  have hroster (subs' : List (ℕ × Topic)) (b₁ : Broker) :
      (if ok' = true then b₁.registerWriteMask h else b₁).roster subs' = b₁.roster subs' := by
    split_ifs
    · exact roster_registerWriteMask b₁ h
    · rfl
  rw [hroster, hroster, roster_setSubscriber_same (by exact hsh) (by rfl),
    roster_setSubscriber_same (by exact hsh) (by rfl)]
  exact ⟨.subscribe (b.roster subs) h sh.connection msg.topic (roster_connection hsh),
    roster_connection hsh⟩

theorem onUnSubscribe_roster (hrun : onUnSubscribe cfg env b h sh msg = .ok (ok, b')) :
    (b.roster subs).Step (b'.roster (subs.filter (· ≠ (sh.connection, msg.topic)))) ∧
      (b'.roster subs).connection h = some sh.connection := by
  obtain ⟨-, -, hrun⟩ := bind_eq_ok.mp hrun
  obtain ⟨⟨ok', bytes⟩, -, hrun⟩ := bind_eq_ok.mp hrun
  cases hrun
  simp only [unSubscribe, hbuf, Bool.false_eq_true, ↓reduceIte]
  exact ⟨.unSubscribe (b.roster subs) h sh.connection msg.topic (roster_connection hsh),
    roster_connection hsh⟩

end

theorem onSubscriberMessage_roster (subs : List (ℕ × Topic)) (hbuf : cfg.enableBuffering = false)
    (hsh : b.subscriberHandlers h = some sh)
    (hrun : onSubscriberMessage cfg env b h sh msg = .ok (ok, b')) :
    (b.roster subs).Reaches (b'.roster (applyRequest sh.connection msg subs)) ∧
      (b'.roster subs).connection h = some sh.connection := by
  rw [applyRequest]
  rcases onSubscriberMessage_cases hrun with
    ⟨htype, hsubscribe⟩ | ⟨htype, rfl⟩ | ⟨htype, hunSubscribe⟩
  · rw [if_pos htype]
    exact (onSubscribe_roster hbuf hsh hsubscribe).imp_left .single
  · rw [htype, if_neg (by decide), if_neg (by decide)]
    exact ⟨.refl, roster_connection hsh⟩
  · rw [htype, if_neg (by decide), if_pos rfl]
    exact (onUnSubscribe_roster hbuf hsh hunSubscribe).imp_left .single

theorem subscriberInput_roster (subs : List (ℕ × Topic)) (hbuf : cfg.enableBuffering = false)
    (hsh : b.subscriberHandlers h = some sh)
    (hrun : subscriberInput cfg env b h sh = .ok (ok, b')) :
    (b.roster subs).Reaches (b'.roster ((request cfg b (.subscriberReadable h env)).elim subs
      fun p => applyRequest p.1 p.2 subs)) ∧
      (b'.roster subs).connection h = some sh.connection := by
  obtain ⟨⟨result, msg⟩, hparse, hrun⟩ := bind_eq_ok.mp hrun
  have hset (tmpMsg : Option Msg) : (b.setSubscriber h (some { sh with
      recentActiveTime := env.now, tmpMsg := tmpMsg })).roster subs = b.roster subs :=
    roster_setSubscriber_same hsh rfl
  have hconn (tmpMsg : Option Msg) : ((b.setSubscriber h (some { sh with
      recentActiveTime := env.now, tmpMsg := tmpMsg })).roster subs).connection h =
        some sh.connection := by
    rw [hset]
    exact roster_connection hsh
  simp only [request, hsh, hparse]
  cases result with
  | error =>
    cases hrun
    exact ⟨Roster.reaches_of_eq (hset none), hconn none⟩
  | half =>
    cases hrun
    exact ⟨Roster.reaches_of_eq (hset (some msg)), hconn (some msg)⟩
  | complete =>
    have hsh' := setSubscriber_self b h
      (some { sh with recentActiveTime := env.now, tmpMsg := none })
    have hmsg := onSubscriberMessage_roster subs hbuf hsh' hrun
    rwa [hset none] at hmsg

theorem closeSubscriber_roster {c : ℕ} (hbuf : cfg.enableBuffering = false)
    (hc : (b.roster subs).connection h = some c)
    (hrun : closeSubscriber cfg h (ok, b) = .ok b') :
    (b.roster subs).Reaches (b'.roster
      ((if (b'.subscriberHandlers h).isNone then some c else none).elim subs
        fun c => subs.filter (·.1 ≠ c))) := by
  obtain ⟨sh, hsh, rfl⟩ := map_eq_some_iff.mp hc
  rw [closeSubscriber] at hrun
  cases ok with
  | true =>
    cases hrun
    rw [hsh]
    exact .refl
  | false =>
    simp only [hsh] at hrun
    obtain ⟨-, -, hrun⟩ := bind_eq_ok.mp hrun
    cases hrun
    rw [setSubscriber_self, hbuf, if_neg Bool.false_ne_true,
      TopicManager.onHandlerDestroyed_maps, roster_setSubscriber]
    exact .single (.destroy (b.roster subs) h sh.connection hc)

theorem subscriberOutput_roster (subs : List (ℕ × Topic)) (hsh : b.subscriberHandlers h = some sh)
    (hrun : subscriberOutput cfg env b h sh = .ok (ok, b')) : b'.roster subs = b.roster subs := by
  obtain ⟨messages, -, hrun⟩ := bind_eq_ok.mp hrun
  obtain ⟨⟨ok₁, b₁⟩, hsend, hrun⟩ := bind_eq_ok.mp hrun
  cases hrun
  obtain ⟨pubs_, pubs, sent, rfl⟩ := sendMessages_eq hsend
  exact roster_setSubscriber_same (by exact hsh) (by rfl)

theorem ended_self (b : Broker) (u : Upcall) : ended b u b = none := by
  unfold ended
  split
  · cases b.subscriberHandlers _ <;> rfl
  · cases b.subscriberHandlers _ <;> rfl
  · rfl

theorem subscriptionsAfter_of_ignored {u : Upcall} (hu : b.Ignored u) :
    subscriptionsAfter cfg b u b subs = subs := by
  have hrequest : request cfg b u = none := by
    cases u with
    | subscriberReadable h env => rw [request, show b.subscriberHandlers h = none from hu]
    | acceptSubscriber | acceptPublisher | subscriberWritable | publisherReadable => rfl
  rw [subscriptionsAfter, hrequest, ended_self]
  rfl

theorem step_roster (subs : List (ℕ × Topic)) {u : Upcall} (hbuf : cfg.enableBuffering = false)
    (hrun : step cfg b u = .ok b') :
    (∃ h env, u = .acceptSubscriber h env ∧ (b.roster subs).connection h = none ∧
      b'.roster (subscriptionsAfter cfg b u b' subs) = (b.roster subs).accept h) ∨
    (b.roster subs).Reaches (b'.roster (subscriptionsAfter cfg b u b' subs)) := by
  cases dispatched_of_step hrun with
  | ignored hu =>
    rw [subscriptionsAfter_of_ignored hu]
    exact Or.inr .refl
  | @acceptSubscriber h env hfree =>
    refine Or.inl ⟨h, env, rfl, ?_, ?_⟩
    · exact congrArg (Option.map connection)
        (Option.isNone_iff_eq_none.mp hfree.1)
    · change { (b.setSubscriber h (some ⟨b.connections, noId, none, env.now, false⟩)).roster subs
        with connections := b.connections + 1 } = _
      rw [roster_setSubscriber]
      rfl
  | acceptPublisher => exact Or.inr .refl
  | subscriberReadable hsh hinput hclose =>
    obtain ⟨hreaches, hconn⟩ := subscriberInput_roster subs hbuf hsh hinput
    refine Or.inr (hreaches.trans ?_)
    simp only [subscriptionsAfter, ended, hsh, map_some]
    exact closeSubscriber_roster hbuf hconn hclose
  | @subscriberWritable h env sh ok b₁ b' hsh _ houtput hclose =>
    have hroster := subscriberOutput_roster subs hsh houtput
    have hconn : (b₁.roster subs).connection h = some sh.connection := by
      rw [hroster]
      exact roster_connection hsh
    simp only [subscriptionsAfter, request, ended, hsh, map_some]
    exact Or.inr ((Roster.reaches_of_eq hroster).trans
      (closeSubscriber_roster hbuf hconn hclose))
  | publisherReadable hph hinput hclose =>
    exact Or.inr (Roster.reaches_of_eq
      ((closePublisher_roster hclose).trans (publisherInput_roster hbuf hinput)))

theorem handler_of_step {u : Upcall} (hbuf : cfg.enableBuffering = false)
    (hrun : step cfg b u = .ok b') (hsh' : b'.subscriberHandlers h = some sh') :
    (∃ sh, b.subscriberHandlers h = some sh ∧ sh.connection = sh'.connection) ∨
      b.subscriberHandlers h = none ∧ ∃ env, u = .acceptSubscriber h env := by
  have hconn : ∀ subs', (b'.roster subs').connection h = some sh'.connection :=
    fun subs' => roster_connection hsh'
  rcases step_roster [] hbuf hrun with ⟨p, env, rfl, hnone, heq⟩ | hreaches
  · have hc := hconn (subscriptionsAfter cfg b (.acceptSubscriber p env) b' [])
    rw [heq] at hc
    obtain ⟨rfl, -⟩ | ⟨-, hc⟩ := Registry.handlers_update hc
    · exact Or.inr ⟨map_eq_none_iff.mp hnone, env, rfl⟩
    · exact Or.inl (map_eq_some_iff.mp hc)
  · exact Or.inl (map_eq_some_iff.mp (hreaches.connection (hconn _)))

end Refinement

end Broker

/-- The broker, the subscriptions, and for each event the connections that were subscribed to its
topic when it was published. -/
structure Watched where
  broker : Broker
  subscriptions : List (ℕ × Topic)
  audience : List (List ℕ)

def subscribedTo (topic : Topic) (subscriptions : List (ℕ × Topic)) : List ℕ :=
  (subscriptions.filter (·.2 = topic)).map Prod.fst

theorem mem_subscribedTo {topic : Topic} {subscriptions : List (ℕ × Topic)} {c : ℕ} :
    c ∈ subscribedTo topic subscriptions ↔ (c, topic) ∈ subscriptions := by
  simp [subscribedTo]

def WasSubscribed (audience : List (List ℕ)) (n c : ℕ) : Prop :=
  ∃ cs, audience[n]? = some cs ∧ c ∈ cs

theorem WasSubscribed.append {audience : List (List ℕ)} {n c : ℕ}
    (h : WasSubscribed audience n c) (new : List (List ℕ)) :
    WasSubscribed (audience ++ new) n c := by
  obtain ⟨cs, hcs, hc⟩ := h
  refine ⟨cs, ?_, hc⟩
  rw [List.getElem?_append_left (List.getElem?_eq_some_iff.mp hcs).1, hcs]

namespace Watched

def audienceAfter (cfg : Config) (w : Watched) (u : Upcall) : List (List ℕ) :=
  w.audience ++ ((published cfg w.broker u).map fun p =>
    subscribedTo p.2.topic w.subscriptions).toList

def step (cfg : Config) (w : Watched) (u : Upcall) : Except Assertion Watched :=
  (Broker.step cfg w.broker u).map fun b =>
    ⟨b, Broker.subscriptionsAfter cfg w.broker u b w.subscriptions, w.audienceAfter cfg u⟩

def start (subscriptionMap : AList fun _ : Topic => List ClientId) (nextAllocateClientId : ℕ) :
    Watched :=
  ⟨Broker.start subscriptionMap nextAllocateClientId, [], []⟩

def CleanAddress (w : Watched) : Upcall → Prop
  | .acceptSubscriber h _ =>
    (w.broker.subscriberHandlers h).isNone → (w.broker.manager.pubs.messages h).isEmpty
  | _ => True

instance (w : Watched) : DecidablePred w.CleanAddress
  | .acceptSubscriber h _ => inferInstanceAs (Decidable
      ((w.broker.subscriberHandlers h).isNone → (w.broker.manager.pubs.messages h).isEmpty))
  | .acceptPublisher _ | .subscriberReadable _ _ | .subscriberWritable _ _
  | .publisherReadable _ _ => .isTrue trivial

structure Fair (w : Watched) : Prop where
  roster : (w.broker.roster w.subscriptions).Wf
  length : w.audience.length = w.broker.received
  pending : ∀ h sh, w.broker.subscriberHandlers h = some sh →
    ∀ e ∈ w.broker.manager.pubs.messages h, WasSubscribed w.audience e.serial sh.connection
  sent : ∀ s ∈ w.broker.sent, WasSubscribed w.audience s.serial s.connection

namespace Fair

variable {cfg : Config} {w w' : Watched} {u : Upcall} {b' : Broker}

theorem start (subscriptionMap : AList fun _ : Topic => List ClientId)
    (nextAllocateClientId : ℕ) : (Watched.start subscriptionMap nextAllocateClientId).Fair where
  roster :=
    { nodup := fun _ => nodup_nil
      listed := fun _ _ => ⟨nofun, fun ⟨_, hc, _⟩ => nomatch hc⟩
      known := fun _ => forall_mem_nil _
      connection_lt := fun _ _ hc => nomatch hc
      connection_inj := fun _ _ _ hc => nomatch hc
      connected := forall_mem_nil _ }
  length := rfl
  pending := fun _ _ hsh => nomatch hsh
  sent := forall_mem_nil _

section

variable (hw : w.Fair) (hbuf : cfg.enableBuffering = false)
include hw hbuf

theorem pending_step
    (hstep : Broker.step cfg w.broker u = .ok b') {h : HandlerPtr} {sh : SubscriberHandler}
    (hsh : w.broker.subscriberHandlers h = some sh) {e : Event}
    (he : e ∈ b'.manager.pubs.messages h) :
    WasSubscribed (w.audienceAfter cfg u) e.serial sh.connection := by
  rw [← Broker.pending_of_plain hbuf b' h sh.id] at he
  rcases Broker.mem_pending_of_step hstep he with hold | ⟨ptr, msg, hsome, rfl, hlisted⟩
  · rw [Broker.pending_of_plain hbuf] at hold
    exact (hw.pending h sh hsh e hold).append _
  · -- the handlers that get the event are those of its topic
    rw [Broker.Addressed, hbuf, if_neg Bool.false_ne_true] at hlisted
    have hsub := (hw.roster.listed_of_connection (roster_connection hsh)).mp hlisted
    refine ⟨subscribedTo msg.topic w.subscriptions, ?_, mem_subscribedTo.mpr hsub⟩
    rw [audienceAfter, hsome, ← hw.length]
    exact getElem?_concat_length

theorem sent_step (hstep : Broker.step cfg w.broker u = .ok b') {s : Sent} (hs : s ∈ b'.sent) :
    WasSubscribed (w.audienceAfter cfg u) s.serial s.connection := by
  rcases mem_sent_of_step hstep hs with hold | ⟨h, sh, hsh, e, he, room, rfl⟩
  · exact (hw.sent s hold).append _
  · rw [pending_of_plain hbuf] at he
    exact (hw.pending h sh hsh e he).append _

theorem step (hclean : w.CleanAddress u)
    (hrun : w.step cfg u = .ok w') : w'.Fair := by
  obtain ⟨b', hstep, rfl⟩ := map_eq_ok.mp hrun
  refine ⟨?_, ?_, fun h sh' hsh' e he => ?_, fun s => hw.sent_step hbuf hstep⟩
  · rcases Broker.step_roster _ hbuf hstep with ⟨h, env, rfl, hnone, heq⟩ | hreaches
    · exact heq ▸ hw.roster.accept hnone
    · exact hw.roster.reaches hreaches
  · rw [audienceAfter, length_append, hw.length, received_of_step hstep,
      toList_map, length_map]
  · rcases Broker.handler_of_step hbuf hstep hsh' with ⟨sh, hsh, hconn⟩ | ⟨hnone, env, rfl⟩
    · exact hconn ▸ hw.pending_step hbuf hstep hsh he
    · -- nothing waits for a new handler
      have hempty := isEmpty_iff.mp (hclean (by rw [hnone]; rfl))
      cases step_tableStep hstep with
      | quiet _ hsame =>
        rw [hsame.pubs, hempty] at he
        cases he
      | publish_ _ _ hsome => cases hsome
      | publish _ _ _ hsome => cases hsome
      | write _ _ _ _ _ hu => cases hu

end

end Fair

/-- **An event is sent only to those that were subscribed to its topic when it was published.** -/
theorem sent_to_subscribed (cfg : Config) (hbuf : cfg.enableBuffering = false)
    (subscriptionMap : AList fun _ : Topic => List ClientId) (nextAllocateClientId : ℕ)
    (us : List Upcall) (w : Watched)
    (hclean : EachStep (step cfg) CleanAddress (start subscriptionMap nextAllocateClientId) us)
    (hrun : runSteps (step cfg) (start subscriptionMap nextAllocateClientId) us = .ok w) :
    ∀ s ∈ w.broker.sent, WasSubscribed w.audience s.serial s.connection := by
  have hfair : w.Fair :=
    runSteps_invariant (fun _ _ _ hw hC hstep => hw.step hbuf hC hstep) (Fair.start ..) hclean hrun
  exact hfair.sent

def subscribeTo (h : HandlerPtr) (topic : Topic) : Upcall :=
  .subscriberReadable h (frameAnswers 300 .subscribe
    (encodeString topic ++ encodeString noId))

theorem sent_to_subscribed_one :
    ∃ w, runSteps (step plainConfig) (start ∅ 1)
        (subscribed ++ [eventAt 100, writable]) = .ok w ∧
      w.broker.sent.map Sent.serial = [0] ∧
      ∀ s ∈ w.broker.sent, WasSubscribed w.audience s.serial s.connection := by
  have hsent : (runSteps (step plainConfig) (start ∅ 1)
      (Broker.subscribed ++ [Broker.eventAt 100, Broker.writable])).map
      (fun w => w.broker.sent.map Sent.serial) = .ok [0] := by decide +kernel
  obtain ⟨w, hrun, hserial⟩ := map_eq_ok.mp hsent
  exact ⟨w, hrun, hserial, sent_to_subscribed Broker.plainConfig rfl ∅ 1 _ w (by decide +kernel)
    hrun⟩

theorem sent_to_next_handler :
    ∃ w, runSteps (step plainConfig) (start ∅ 1)
        (subscribed ++ [eventAt 100, Traced.endOf 1, Traced.connectOn 1,
          subscribeTo 1 (ascii "u"), writable]) = .ok w ∧
      ∃ s ∈ w.broker.sent, ¬ WasSubscribed w.audience s.serial s.connection := by
  have hstate : (runSteps (step plainConfig) (start ∅ 1)
      (subscribed ++ [eventAt 100, Traced.endOf 1, Traced.connectOn 1,
        subscribeTo 1 (ascii "u"), writable])).map
      (fun w => (w.broker.sent.map fun s => (s.serial, s.connection), w.audience)) =
      .ok ([(0, 1)], [[0]]) := by decide +kernel
  obtain ⟨w, hrun, heq⟩ := map_eq_ok.mp hstate
  obtain ⟨hsent, haudience⟩ := Prod.mk.inj heq
  obtain ⟨s, rest, hs, hserial, -⟩ := map_eq_cons_iff.mp hsent
  obtain ⟨hserial, hconn⟩ := Prod.mk.inj hserial
  refine ⟨w, hrun, s, by rw [hs]; exact mem_cons_self, ?_⟩
  rintro ⟨cs, hcs, hmem⟩
  rw [haudience, hserial] at hcs
  cases hcs
  rw [hconn] at hmem
  exact absurd hmem (by decide)

end Watched

end Icm.Messaging
