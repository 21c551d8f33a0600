import Icm.Messaging.Order

/-!
# The table of the connected subscribers

With buffering the topic manager keeps the handler of each connected subscriber under its id, and a
handler that is destroyed clears the entry of its id, whoever is registered there.
-/

namespace Icm.Messaging

open Icm.Lib Icm.Stream Function Broker Option SubscriberHandler List

open Broker (noId)

theorem Broker.noId_ne_nil : noId ≠ [] := by decide

def Registered (subscribers : ClientId → Option HandlerPtr) (ids : HandlerPtr → Option ClientId) :
    Prop :=
  ∀ id h, subscribers id = some h ↔ id ≠ noId ∧ ids h = some id

namespace Registered

variable {subscribers : ClientId → Option HandlerPtr} {ids : HandlerPtr → Option ClientId}
  {h : HandlerPtr} {id id₀ : ClientId}

section

variable (hR : Registered subscribers ids)
include hR

theorem accept (hnone : ids h = none) :
    Registered subscribers (update ids h (some noId)) := by
  intro id p
  by_cases hp : p = h
  · subst hp
    have hold := hR id p
    rw [hnone] at hold
    rw [update_self]
    exact hold.trans ⟨nofun, fun hnew => absurd (some.inj hnew.2).symm hnew.1⟩
  · rw [update_of_ne hp]
    exact hR id p

theorem take (hold : ids h = some id₀) (hne : id ≠ noId)
    (hid : id₀ = id ∨ id₀ = noId ∧ subscribers id = none) :
    Registered (update subscribers id (some h)) (update ids h (some id)) := by
  intro id' p
  by_cases hp : p = h <;> by_cases hid' : id' = id
  · subst hp hid'
    rw [update_self, update_self]
    exact ⟨fun _ => ⟨hne, rfl⟩, fun _ => rfl⟩
  · -- the handler was not registered under another id
    subst hp
    rw [update_of_ne hid', update_self, hR id' p, hold]
    refine ⟨fun h => ?_, fun hnew => absurd (some.inj hnew.2).symm hid'⟩
    have hsame : id₀ = id' := some.inj h.2
    rcases hid with rfl | ⟨rfl, -⟩
    · exact absurd hsame.symm hid'
    · exact absurd hsame.symm h.1
  · -- no other handler has the id
    subst hid'
    rw [update_self, update_of_ne hp]
    refine ⟨fun heq => absurd (some.inj heq).symm hp, fun h => ?_⟩
    have hreg := (hR id' p).mpr h
    rcases hid with rfl | ⟨-, hnone⟩
    · rw [(hR _ _).mpr ⟨hne, hold⟩] at hreg
      exact absurd (some.inj hreg).symm hp
    · rw [hnone] at hreg
      cases hreg
  · rw [update_of_ne hid', update_of_ne hp]
    exact hR id' p

theorem release (hold : ids h = some id₀) :
    Registered (update subscribers id₀ none) (update ids h none) := by
  intro id p
  by_cases hp : p = h
  · subst hp
    rw [update_self]
    refine ⟨fun h => ?_, fun hnew => nomatch hnew.2⟩
    by_cases hid : id = id₀
    · rw [hid, update_self] at h
      cases h
    · rw [update_of_ne hid, hR, hold] at h
      exact absurd (some.inj h.2).symm hid
  · rw [update_of_ne hp]
    refine Iff.trans ?_ (hR id p)
    by_cases hid : id = id₀
    · subst hid
      rw [update_self]
      refine ⟨nofun, fun h => ?_⟩
      rw [(hR _ _).mpr ⟨((hR _ p).mp h).1, hold⟩] at h
      exact absurd (some.inj h).symm hp
    · rw [update_of_ne hid]

end

end Registered

structure Entry where
  connection : ℕ
  id : ClientId
  writeMask : Bool

structure Registry where
  subscribers : ClientId → Option HandlerPtr
  handlers : HandlerPtr → Option Entry
  connections : ℕ
  nextAllocateClientId : ℕ
  log : List (ClientId × ℕ)

namespace Registry

inductive Step : Registry → Registry → Prop
  | accept (r : Registry) (h : HandlerPtr) (hnone : r.handlers h = none) :
      Step r { r with
        handlers := update r.handlers h (some ⟨r.connections, noId, false⟩)
        connections := r.connections + 1 }
  | subscribe (r : Registry) (h : HandlerPtr) (e : Entry) (id : ClientId) (next : ℕ)
      (he : r.handlers h = some e) (hne_nil : id ≠ []) (hne : id ≠ noId)
      (hid : e.id = id ∨ e.id = noId ∧ r.subscribers id = none)
      (hnext : r.nextAllocateClientId ≤ next) :
      Step r { r with
        subscribers := update r.subscribers id (some h)
        handlers := update r.handlers h (some { e with id := id })
        nextAllocateClientId := next
        log := (id, e.connection) :: r.log }
  | destroy (r : Registry) (h : HandlerPtr) (e : Entry) (he : r.handlers h = some e) :
      Step r { r with
        subscribers := if e.id ≠ [] then update r.subscribers e.id none else r.subscribers
        handlers := update r.handlers h none }
  | mark (r : Registry) (h : HandlerPtr) (e : Entry) (id : ClientId) (he : r.handlers h = some e)
      (hid : r.subscribers id = some h) :
      Step r { r with handlers := update r.handlers h (some { e with writeMask := true }) }
  | unmark (r : Registry) (h : HandlerPtr) (e : Entry) (he : r.handlers h = some e) :
      Step r
        { r with handlers := update r.handlers h (some { e with writeMask := false }) }

abbrev Reaches : Registry → Registry → Prop := Relation.ReflTransGen Step

theorem reaches_of_eq {r r' : Registry} (h : r' = r) : r.Reaches r' := h ▸ .refl

def IsLatest (r : Registry) (id : ClientId) (h : HandlerPtr) : Prop :=
  ∃ newer older e, r.log = newer ++ (id, e.connection) :: older ∧ r.handlers h = some e ∧
    ∀ p ∈ newer, p.1 = id → ∀ h' e', r.handlers h' = some e' → e'.connection ≠ p.2

structure Wf (r : Registry) : Prop where
  next_pos : 0 < r.nextAllocateClientId
  registered : Registered r.subscribers fun h => (r.handlers h).map Entry.id
  id_ne_nil : ∀ h e, r.handlers h = some e → e.id ≠ []
  marked : ∀ h e, r.handlers h = some e → e.writeMask = true → e.id ≠ noId
  connection_lt : ∀ h e, r.handlers h = some e → e.connection < r.connections
  connection_inj : ∀ h h' e e', r.handlers h = some e → r.handlers h' = some e' →
    e.connection = e'.connection → h = h'
  log_lt : ∀ p ∈ r.log, p.2 < r.connections
  logged : ∀ h e, r.handlers h = some e →
    ∀ id, (id, e.connection) ∈ r.log ↔ id = e.id ∧ id ≠ noId

variable {r r' : Registry} {h : HandlerPtr} {id : ClientId}

theorem handlers_update {α : Type} {f : HandlerPtr → Option α} {v : Option α} {p : HandlerPtr}
    {x : α} (hx : update f h v p = some x) :
    p = h ∧ v = some x ∨ p ≠ h ∧ f p = some x := by
  by_cases hp : p = h
  · subst hp
    rw [update_self] at hx
    exact Or.inl ⟨rfl, hx⟩
  · rw [update_of_ne hp] at hx
    exact Or.inr ⟨hp, hx⟩

theorem map_update {α β : Type} (g : α → β) (f : HandlerPtr → Option α) (h : HandlerPtr)
    (v : Option α) :
    (fun p => (update f h v p).map g) =
      update (fun p => (f p).map g) h (v.map g) := by
  funext p
  by_cases hp : p = h
  · subst hp
    rw [update_self, update_self]
  · rw [update_of_ne hp, update_of_ne hp]

namespace Wf

theorem subscribers_eq (hr : Wf r) {e : Entry} (he : r.handlers h = some e) (hid : e.id ≠ noId) :
    r.subscribers e.id = some h :=
  (hr.registered e.id h).mpr ⟨hid, congrArg (Option.map Entry.id) he⟩

theorem set (hr : Wf r) {e : Entry} (he : r.handlers h = some e) (e' : Entry)
    (hconn : e'.connection = e.connection) {subscribers : ClientId → Option HandlerPtr} {next : ℕ}
    {new : List (ClientId × ℕ)} (hnext : r.nextAllocateClientId ≤ next)
    (hreg : Registered subscribers
      (update (fun p => (r.handlers p).map Entry.id) h (some e'.id)))
    (hnil : e'.id ≠ []) (hmark : e'.writeMask = true → e'.id ≠ noId)
    (hnew : ∀ p ∈ new, p.2 = e.connection)
    (hlog : ∀ id, (id, e.connection) ∈ new ++ r.log ↔ id = e'.id ∧ id ≠ noId) :
    Wf ⟨subscribers, update r.handlers h (some e'), r.connections, next,
      new ++ r.log⟩ where
  next_pos := hr.next_pos.trans_le hnext
  registered := by
    rw [map_update]
    exact hreg
  id_ne_nil := by
    intro p x hx
    obtain ⟨-, ⟨⟩⟩ | ⟨-, hx⟩ := handlers_update hx
    · exact hnil
    · exact hr.id_ne_nil p x hx
  marked := by
    intro p x hx
    obtain ⟨-, ⟨⟩⟩ | ⟨-, hx⟩ := handlers_update hx
    · exact hmark
    · exact hr.marked p x hx
  connection_lt := by
    intro p x hx
    obtain ⟨-, ⟨⟩⟩ | ⟨-, hx⟩ := handlers_update hx
    · rw [hconn]
      exact hr.connection_lt h e he
    · exact hr.connection_lt p x hx
  connection_inj := by
    intro p q x y hx hy hxy
    obtain ⟨rfl, ⟨⟩⟩ | ⟨-, hp⟩ := handlers_update hx <;>
      obtain ⟨rfl, ⟨⟩⟩ | ⟨-, hq⟩ := handlers_update hy
    · rfl
    · exact hr.connection_inj p q e y he hq (hconn.symm.trans hxy)
    · exact hr.connection_inj p q x e hp he (hxy.trans hconn)
    · exact hr.connection_inj p q x y hp hq hxy
  log_lt := by
    refine forall_mem_append.mpr ⟨fun p hp => ?_, hr.log_lt⟩
    rw [hnew p hp]
    exact hr.connection_lt h e he
  logged := by
    intro p x hx id
    obtain ⟨-, ⟨⟩⟩ | ⟨hp, hx⟩ := handlers_update hx
    · rw [hconn]
      exact hlog id
    · rw [← hr.logged p x hx id, mem_append]
      refine or_iff_right fun hmem => hp ?_
      exact hr.connection_inj p h x e hx he (hnew _ hmem)

theorem step (hr : Wf r) (hs : Step r r') : Wf r' := by
  cases hs with
  | accept h hnone =>
    refine ⟨hr.next_pos, ?_, ?_, ?_, ?_, ?_, ?_, ?_⟩
    · rw [map_update]
      exact hr.registered.accept (by rw [hnone]; rfl)
    · intro p x hx
      obtain ⟨-, ⟨⟩⟩ | ⟨-, hx⟩ := handlers_update hx
      · exact noId_ne_nil
      · exact hr.id_ne_nil p x hx
    · intro p x hx
      obtain ⟨-, ⟨⟩⟩ | ⟨-, hx⟩ := handlers_update hx
      · exact nofun
      · exact hr.marked p x hx
    · intro p x hx
      obtain ⟨-, ⟨⟩⟩ | ⟨-, hx⟩ := handlers_update hx
      · exact Nat.lt_succ_self _
      · exact (hr.connection_lt p x hx).trans (Nat.lt_succ_self _)
    · intro p q x y hx hy hxy
      obtain ⟨rfl, ⟨⟩⟩ | ⟨-, hp⟩ := handlers_update hx <;>
        obtain ⟨rfl, ⟨⟩⟩ | ⟨-, hq⟩ := handlers_update hy
      · rfl
      · exact absurd hxy (hr.connection_lt q y hq).ne'
      · exact absurd hxy (hr.connection_lt p x hp).ne
      · exact hr.connection_inj p q x y hp hq hxy
    · exact fun p hp => (hr.log_lt p hp).trans (Nat.lt_succ_self _)
    · intro p x hx id
      obtain ⟨-, ⟨⟩⟩ | ⟨-, hx⟩ := handlers_update hx
      · exact ⟨fun hmem => absurd (hr.log_lt _ hmem) (lt_irrefl _), fun h => absurd h.1 h.2⟩
      · exact hr.logged p x hx id
  | subscribe h e id next he hne_nil hne hid hnext =>
    refine hr.set he { e with id := id } rfl hnext ?_ hne_nil (fun _ => hne)
      (forall_mem_singleton.mpr rfl : ∀ p ∈ [(id, e.connection)], p.2 = e.connection)
      fun id' => ?_
    · exact hr.registered.take (by rw [he]; rfl) hne hid
    · rw [mem_append, mem_singleton, Prod.mk.injEq, hr.logged h e he id']
      constructor
      · rintro (⟨rfl, -⟩ | ⟨rfl, hno⟩)
        · exact ⟨rfl, hne⟩
        · exact ⟨hid.resolve_right fun hfree => hno hfree.1, hno⟩
      · rintro ⟨rfl, -⟩
        exact Or.inl ⟨rfl, rfl⟩
  | destroy h e he =>
    have hkeep {p : HandlerPtr} {x : Entry} (hx : update r.handlers h none p = some x) :
        r.handlers p = some x := by
      obtain ⟨-, ⟨⟩⟩ | ⟨-, hx⟩ := handlers_update hx
      exact hx
    refine ⟨hr.next_pos, ?_, fun p x hx => hr.id_ne_nil p x (hkeep hx),
      fun p x hx => hr.marked p x (hkeep hx), fun p x hx => hr.connection_lt p x (hkeep hx),
      fun p q x y hx hy => hr.connection_inj p q x y (hkeep hx) (hkeep hy), hr.log_lt,
      fun p x hx => hr.logged p x (hkeep hx)⟩
    rw [if_pos (hr.id_ne_nil h e he), map_update]
    exact hr.registered.release (by rw [he]; rfl)
  | mark h e id he hid =>
    have heq : (r.handlers h).map Entry.id = some id := ((hr.registered id h).mp hid).2
    have hne := ((hr.registered id h).mp hid).1
    rw [he, map_some, some.injEq] at heq
    refine hr.set he { e with writeMask := true } rfl le_rfl ?_ (hr.id_ne_nil h e he)
      (fun _ => heq ▸ hne) (forall_mem_nil _) (hr.logged h e he)
    rw [update_eq_self_iff.mpr (by rw [he]; rfl)]
    exact hr.registered
  | unmark h e he =>
    refine hr.set he { e with writeMask := false } rfl le_rfl ?_ (hr.id_ne_nil h e he) nofun
      (forall_mem_nil _) (hr.logged h e he)
    rw [update_eq_self_iff.mpr (by rw [he]; rfl)]
    exact hr.registered

theorem reaches (hr : Wf r) (hs : Reaches r r') : Wf r' := by
  induction hs with
  | refl => exact hr
  | tail _ hstep ih => exact ih.step hstep

theorem subscribers_iff (hr : Wf r) (id : ClientId) (h : HandlerPtr) :
    r.subscribers id = some h ↔ r.IsLatest id h := by
  constructor
  · intro hid
    obtain ⟨hne, hmap⟩ := (hr.registered id h).mp hid
    obtain ⟨e, he, rfl⟩ := map_eq_some_iff.mp hmap
    obtain ⟨newer, older, hlog, hnot⟩ :=
      eq_append_cons_of_mem ((hr.logged h e he e.id).mpr ⟨rfl, hne⟩)
    refine ⟨newer, older, e, hlog, he, ?_⟩
    rintro ⟨id', c⟩ hp rfl h' e' he' rfl
    -- a later subscription of a handler that is there is one of `h` itself
    have hmem : (e.id, e'.connection) ∈ r.log := hlog ▸ mem_append_left _ hp
    have hid' := ((hr.logged h' e' he' e.id).mp hmem).1
    have hreg := hr.subscribers_eq he' (hid' ▸ hne)
    rw [← hid', hid] at hreg
    cases hreg
    obtain rfl := some.inj (he.symm.trans he')
    exact hnot hp
  · rintro ⟨newer, older, e, hlog, he, -⟩
    have hmem : (id, e.connection) ∈ r.log := by
      rw [hlog]
      exact mem_append_right _ mem_cons_self
    obtain ⟨rfl, hne⟩ := (hr.logged h e he id).mp hmem
    exact hr.subscribers_eq he hne

end Wf

end Registry

def SubscriberHandler.entry (sh : SubscriberHandler) : Entry := ⟨sh.connection, sh.id, sh.writeMask⟩

namespace Broker

def registry (b : Broker) (log : List (ClientId × ℕ)) : Registry where
  subscribers := b.manager.subscribers
  handlers := fun h => (b.subscriberHandlers h).map entry
  connections := b.connections
  nextAllocateClientId := b.manager.nextAllocateClientId
  log := log

def takenId (tm : TopicManager) (subscriberId : ClientId) : ClientId :=
  if subscriberId = noId then decimal tm.nextAllocateClientId else subscriberId

def subscription (cfg : Config) (b : Broker) : Upcall → Option (ClientId × ℕ)
  | .subscriberReadable h env =>
    match b.subscriberHandlers h with
    | none => none
    | some sh =>
      match parseInput cfg env sh.tmpMsg with
      | .ok (.complete, msg) =>
        if msg.messageType = MsgType.subscribe.toOctet then
          some (takenId b.manager msg.subscriberId, sh.connection)
        else none
      | _ => none
  | _ => none

def Unclaimed (cfg : Config) (b : Broker) : Upcall → Prop
  | .subscriberReadable h env => ∀ sh ∈ b.subscriberHandlers h,
      match parseInput cfg env sh.tmpMsg with
      | .ok (.complete, msg) => msg.messageType = MsgType.subscribe.toOctet →
          sh.id = takenId b.manager msg.subscriberId ∨
            sh.id = noId ∧ b.manager.subscribers (takenId b.manager msg.subscriberId) = none
      | _ => True
  | _ => True

instance (cfg : Config) (b : Broker) : DecidablePred (Unclaimed cfg b)
  | .subscriberReadable h env => by
    unfold Unclaimed
    have hmsg (sh : SubscriberHandler) : Decidable (match parseInput cfg env sh.tmpMsg with
        | .ok (.complete, msg) => msg.messageType = MsgType.subscribe.toOctet →
            sh.id = takenId b.manager msg.subscriberId ∨
              sh.id = noId ∧ b.manager.subscribers (takenId b.manager msg.subscriberId) = none
        | _ => True) := by
      split <;> infer_instance
    infer_instance
  | .acceptSubscriber _ _ | .acceptPublisher _ | .subscriberWritable _ _ | .publisherReadable _ _ =>
    .isTrue trivial

section Refinement

variable {cfg : Config} {env : Answers} {b b' : Broker} {h : HandlerPtr}
  {sh sh' : SubscriberHandler} {msg : Msg} {ok : Bool} {log : List (ClientId × ℕ)}

theorem registry_handlers (hsh : b.subscriberHandlers h = some sh) :
    (b.registry log).handlers h = some sh.entry :=
  congrArg (Option.map entry) hsh

theorem registry_setSubscriber (b : Broker) (h : HandlerPtr) (r : Option SubscriberHandler)
    (log : List (ClientId × ℕ)) :
    (b.setSubscriber h r).registry log =
      { b.registry log with
        handlers := update (b.registry log).handlers h
          (r.map entry) } := by
  simp only [registry, setSubscriber, Registry.map_update]

theorem registry_setSubscriber_same (hsh : b.subscriberHandlers h = some sh)
    (he : sh'.entry = sh.entry) :
    (b.setSubscriber h (some sh')).registry log = b.registry log := by
  rw [registry_setSubscriber, map_some, he,
    update_eq_self_iff.mpr (registry_handlers hsh).symm]

theorem registerWriteMask_reaches {id : ClientId} (hid : b.manager.subscribers id = some h) :
    (b.registry log).Reaches ((b.registerWriteMask h).registry log) := by
  rw [registerWriteMask]
  cases hsh : b.subscriberHandlers h with
  | none => exact .refl
  | some sh =>
    refine .single ?_
    simp only [registry_setSubscriber]
    exact .mark (b.registry log) h sh.entry id (registry_handlers hsh) hid

theorem reaches_addMessageTo_ {e : Event} {ids : List ClientId}
    (hrun : addMessageTo_ e ids b = .ok b') : (b.registry log).Reaches (b'.registry log) := by
  refine addMessageTo_.invariant (I := fun b' => (b.registry log).Reaches (b'.registry log)) ?_ ?_
    hrun .refl
  · intro b₁ id h hid hreaches
    exact hreaches.trans (registerWriteMask_reaches hid)
  · intro b₁ id hreaches
    exact hreaches

theorem onPublisherMessage_reaches {ptr : MsgPtr} (hbuf : cfg.enableBuffering = true)
    (hrun : onPublisherMessage cfg env b ptr msg = .ok (ok, b')) :
    (b.registry log).Reaches (b'.registry log) := by
  rcases onPublisherMessage_cases hrun with ⟨-, rfl⟩ | ⟨-, -, ⟨-, hadd⟩ | ⟨hplain, -⟩⟩
  · exact .refl
  · rw [addMessage_] at hadd
    exact (reaches_addMessageTo_ hadd :)
  · exact absurd hbuf (by rw [hplain]; exact nofun)

theorem publisherInput_reaches {ph : PublisherHandler} (hbuf : cfg.enableBuffering = true)
    (hrun : publisherInput cfg env b h ph = .ok (ok, b')) :
    (b.registry log).Reaches (b'.registry log) := by
  rcases publisherInput_cases hrun with ⟨result, msg, current, -, -, rfl⟩ | ⟨msg, -, hmsg⟩
  · exact .refl
  · exact (onPublisherMessage_reaches hbuf hmsg :)

theorem closePublisher_registry (hrun : closePublisher h (ok, b) = .ok b') :
    b'.registry log = b.registry log := by
  rcases closePublisher_cases hrun with rfl | ⟨ph, -, -, rfl⟩ <;> rfl

theorem chooseId_cases {tm tm' : TopicManager} {subscriberId id : ClientId}
    (hrun : chooseId tm subscriberId = .ok (id, tm')) :
    id = takenId tm subscriberId ∧ tm'.subscribers = tm.subscribers ∧
      tm.nextAllocateClientId ≤ tm'.nextAllocateClientId := by
  obtain ⟨-, -, hrun⟩ := bind_eq_ok.mp hrun
  rw [takenId]
  split_ifs at hrun ⊢
  · obtain ⟨-, -, hrun⟩ := bind_eq_ok.mp hrun
    cases hrun
    exact ⟨rfl, rfl, Nat.le_succ _⟩
  · cases hrun
    exact ⟨rfl, rfl, le_rfl⟩

theorem subscribe_cases {tm tm' : TopicManager} {id : ClientId} (hbuf : cfg.enableBuffering = true)
    (hrun : subscribe cfg tm h sh msg = .ok (id, tm')) :
    id = takenId tm msg.subscriberId ∧ id ≠ [] ∧
      tm'.subscribers = update tm.subscribers id (some h) ∧
      tm.nextAllocateClientId ≤ tm'.nextAllocateClientId := by
  rw [subscribe, if_pos hbuf] at hrun
  obtain ⟨⟨id', tm₁⟩, hid, hrun⟩ := bind_eq_ok.mp hrun
  obtain ⟨tm₂, hadd, hrun⟩ := bind_eq_ok.mp hrun
  obtain ⟨-, -, hadd⟩ := bind_eq_ok.mp hadd
  obtain ⟨⟨⟩, hnil, hadd⟩ := bind_eq_ok.mp hadd
  have hne := require_eq_ok.mp hnil
  cases hadd
  obtain ⟨rfl, rfl⟩ := Prod.mk.inj (Except.ok.inj hrun)
  obtain ⟨htaken, hsubscribers, hnext⟩ := chooseId_cases hid
  refine ⟨htaken, hne, ?_, hnext⟩
  change update tm₁.subscribers id' (some h) = _
  rw [hsubscribers]

theorem takenId_ne {tm : TopicManager} (subscriberId : ClientId)
    (hnext : 0 < tm.nextAllocateClientId) : takenId tm subscriberId ≠ noId := by
  rw [takenId]
  split_ifs with hno
  · intro heq
    have hdigit : ∀ n < 10, 0 < n → decimal n ≠ noId := by decide
    exact hdigit _ (lt_ten_of_length_decimal (congrArg length heq)) hnext heq
  · exact hno

theorem onSubscribe_reaches (hbuf : cfg.enableBuffering = true)
    (hnext : 0 < b.manager.nextAllocateClientId) (hsh : b.subscriberHandlers h = some sh)
    (hfree : sh.id = takenId b.manager msg.subscriberId ∨
      sh.id = noId ∧ b.manager.subscribers (takenId b.manager msg.subscriberId) = none)
    (hrun : onSubscribe cfg env b h sh msg = .ok (ok, b')) :
    (b.registry log).Reaches
      (b'.registry ((takenId b.manager msg.subscriberId, sh.connection) :: log)) := by
  obtain ⟨⟨id, tm⟩, htm, hrun⟩ := bind_eq_ok.mp hrun
  obtain ⟨⟨ok', bytes⟩, -, hrun⟩ := bind_eq_ok.mp hrun
  cases hrun
  obtain ⟨rfl, hne_nil, hsubscribers, hle⟩ := subscribe_cases hbuf htm
  have hset : (b.registry log).Reaches
      ((({ b with manager := tm } : Broker).setSubscriber h
        (some { sh with id := takenId b.manager msg.subscriberId })).registry
        ((takenId b.manager msg.subscriberId, sh.connection) :: log)) := by
    refine .single ?_
    have hstep := Registry.Step.subscribe (b.registry log) h sh.entry _ _ (registry_handlers hsh)
      hne_nil (takenId_ne _ hnext) hfree hle
    rw [registry_setSubscriber]
    simp only [registry, hsubscribers] at hstep ⊢
    exact hstep
  split_ifs
  · have hid : tm.subscribers (takenId b.manager msg.subscriberId) = some h := by
      rw [hsubscribers, update_self]
    exact hset.trans (registerWriteMask_reaches (by exact hid))
  · exact hset

theorem onUnSubscribe_registry (hrun : onUnSubscribe cfg env b h sh msg = .ok (ok, b')) :
    b'.registry log = b.registry log := by
  obtain ⟨-, -, hrun⟩ := bind_eq_ok.mp hrun
  obtain ⟨⟨ok', bytes⟩, -, hrun⟩ := bind_eq_ok.mp hrun
  cases hrun
  simp only [registry, unSubscribe]
  split_ifs <;> rfl

theorem onSubscriberMessage_reaches (log : List (ClientId × ℕ)) (hbuf : cfg.enableBuffering = true)
    (hnext : 0 < b.manager.nextAllocateClientId) (hsh : b.subscriberHandlers h = some sh)
    (hfree : msg.messageType = MsgType.subscribe.toOctet →
      sh.id = takenId b.manager msg.subscriberId ∨
        sh.id = noId ∧ b.manager.subscribers (takenId b.manager msg.subscriberId) = none)
    (hrun : onSubscriberMessage cfg env b h sh msg = .ok (ok, b')) :
    (b.registry log).Reaches
      (b'.registry ((if msg.messageType = MsgType.subscribe.toOctet then
        some (takenId b.manager msg.subscriberId, sh.connection) else none).toList ++ log)) := by
  rcases onSubscriberMessage_cases hrun with
    ⟨htype, hsubscribe⟩ | ⟨htype, rfl⟩ | ⟨htype, hunSubscribe⟩
  · rw [if_pos htype]
    exact onSubscribe_reaches hbuf hnext hsh (hfree htype) hsubscribe
  · rw [htype, if_neg (by decide)]
    exact .refl
  · rw [htype, if_neg (by decide), toList_none, nil_append,
      onUnSubscribe_registry hunSubscribe]

theorem subscriberInput_reaches (hbuf : cfg.enableBuffering = true)
    (hnext : 0 < b.manager.nextAllocateClientId) (hsh : b.subscriberHandlers h = some sh)
    (hu : Unclaimed cfg b (.subscriberReadable h env))
    (hrun : subscriberInput cfg env b h sh = .ok (ok, b')) :
    (b.registry log).Reaches
      (b'.registry ((subscription cfg b (.subscriberReadable h env)).toList ++ log)) := by
  obtain ⟨⟨result, msg⟩, hparse, hrun⟩ := bind_eq_ok.mp hrun
  have hu := hu sh hsh
  simp only [hparse] at hu
  simp only [subscription, hsh, hparse]
  have hset (tmpMsg : Option Msg) : (b.setSubscriber h (some { sh with
      recentActiveTime := env.now, tmpMsg := tmpMsg })).registry log = b.registry log :=
    registry_setSubscriber_same hsh rfl
  cases result with
  | error =>
    cases hrun
    exact Registry.reaches_of_eq (hset none)
  | half =>
    cases hrun
    exact Registry.reaches_of_eq (hset (some msg))
  | complete =>
    simp only [reduceCtorEq, ↓reduceIte] at hrun
    rw [← hset none]
    have hsh' := setSubscriber_self b h
      (some { sh with recentActiveTime := env.now, tmpMsg := none })
    have hreaches := onSubscriberMessage_reaches log hbuf (by exact hnext) hsh' hu hrun
    exact hreaches

theorem closeSubscriber_reaches (hbuf : cfg.enableBuffering = true)
    (hrun : closeSubscriber cfg h (ok, b) = .ok b') :
    (b.registry log).Reaches (b'.registry log) := by
  rw [closeSubscriber] at hrun
  cases ok with
  | true =>
    cases hrun
    exact .refl
  | false =>
    cases hsh : b.subscriberHandlers h with
    | none =>
      simp only [hsh] at hrun
      cases hrun
      exact .refl
    | some sh =>
      simp only [hsh] at hrun
      obtain ⟨-, -, hrun⟩ := bind_eq_ok.mp hrun
      cases hrun
      refine .single ?_
      have hstep := Registry.Step.destroy (b.registry log) h sh.entry (registry_handlers hsh)
      rw [registry_setSubscriber, if_pos hbuf]
      by_cases hnil : sh.id ≠ []
      · rw [if_pos (show sh.entry.id ≠ [] from hnil)] at hstep
        rw [if_pos hnil]
        exact hstep
      · rw [if_neg (show ¬ sh.entry.id ≠ [] from hnil)] at hstep
        rw [if_neg hnil]
        exact hstep

theorem sendMessages_registry {es : List Event} {rs : ℕ → SendResult}
    (hrun : sendMessages cfg env h sh es rs b = .ok (ok, b')) :
    b'.registry log = b.registry log ∧ b'.subscriberHandlers = b.subscriberHandlers := by
  obtain ⟨pubs_, pubs, sent, rfl⟩ := sendMessages_eq hrun
  exact ⟨rfl, rfl⟩

theorem subscriberOutput_reaches (hsh : b.subscriberHandlers h = some sh)
    (hmask : sh.writeMask = true) (hrun : subscriberOutput cfg env b h sh = .ok (ok, b')) :
    (b.registry log).Reaches (b'.registry log) := by
  obtain ⟨messages, -, hrun⟩ := bind_eq_ok.mp hrun
  obtain ⟨⟨ok₁, b₁⟩, hsend, hrun⟩ := bind_eq_ok.mp hrun
  obtain ⟨rfl, rfl⟩ := Prod.mk.inj (Except.ok.inj hrun)
  obtain ⟨hregistry, hhandlers⟩ := sendMessages_registry hsend
  have hsh₁ : b₁.subscriberHandlers h = some sh := by rw [hhandlers, hsh]
  rw [← hregistry]
  cases ok₁ with
  | false =>
    rw [registry_setSubscriber_same hsh₁]
    simp only [entry, hmask, Bool.not_false]
  | true =>
    refine .single ?_
    rw [registry_setSubscriber]
    exact .unmark (b₁.registry log) h sh.entry (registry_handlers hsh₁)

theorem subscription_of_ignored {u : Upcall} (hu : b.Ignored u) :
    subscription cfg b u = none := by
  cases u with
  | subscriberReadable h env => rw [subscription, show b.subscriberHandlers h = none from hu]
  | acceptSubscriber | acceptPublisher | subscriberWritable | publisherReadable => rfl

theorem step_reaches {u : Upcall} (hbuf : cfg.enableBuffering = true)
    (hnext : 0 < b.manager.nextAllocateClientId) (hu : Unclaimed cfg b u)
    (hrun : step cfg b u = .ok b') :
    (b.registry log).Reaches (b'.registry ((subscription cfg b u).toList ++ log)) := by
  cases dispatched_of_step hrun with
  | ignored hu =>
    rw [subscription_of_ignored hu]
    exact .refl
  | @acceptSubscriber h env hnone =>
    refine .single ?_
    have hfree : (b.registry log).handlers h = none :=
      congrArg (Option.map entry) (Option.isNone_iff_eq_none.mp hnone.1)
    have hregistry :=
      registry_setSubscriber b h (some ⟨b.connections, noId, none, env.now, false⟩) log
    have hstep := Registry.Step.accept (b.registry log) h hfree
    change (b.registry log).Step { (b.setSubscriber h
      (some ⟨b.connections, noId, none, env.now, false⟩)).registry log with
        connections := b.connections + 1 }
    rw [hregistry]
    exact hstep
  | acceptPublisher => exact .refl
  | subscriberReadable hsh hinput hclose =>
    exact (subscriberInput_reaches hbuf hnext hsh hu hinput).trans
      (closeSubscriber_reaches hbuf hclose)
  | subscriberWritable hsh hmask houtput hclose =>
    exact (subscriberOutput_reaches hsh hmask houtput).trans
      (closeSubscriber_reaches hbuf hclose)
  | publisherReadable hph hinput hclose =>
    exact (publisherInput_reaches hbuf hinput).trans
      (Registry.reaches_of_eq (closePublisher_registry hclose))

end Refinement

section Assertion

variable {cfg : Config} {env : Answers} {b : Broker} {h : HandlerPtr} {sh : SubscriberHandler}

theorem appendBlocks_ne (bs : List MessageBlock) :
    MsgProtocol.appendBlocks bs ≠ .error .sendHandler := by
  induction bs with
  | nil => exact ok_ne_error
  | cons b bs ih => exact bind_ne_error (require_ne_error (by simp)) fun _ _ => bind_ok_ne_error ih

theorem sendLoop_ne (bs : List MessageBlock) (rs : ℕ → SendResult) :
    MsgProtocol.sendLoop bs rs ≠ .error .sendHandler := by
  induction bs generalizing rs with
  | nil => exact ok_ne_error
  | cons b bs ih =>
    refine bind_ne_error (require_ne_error (by simp)) fun _ _ => ?_
    split
    · exact ok_ne_error
    · exact bind_ok_ne_error (ih _)

theorem reply_ne (type : MsgType) (fields : List Value) :
    reply cfg env type fields ≠ .error .sendHandler := by
  refine bind_ne_error ?_ fun os _ =>
    bind_ne_error (bind_ne_error (appendBlocks_ne _) fun s _ => ?_) fun _ _ => sendLoop_ne _ _
  · cases (MsgProtocol.start cfg.host type (.create cfg.host env.osHeap)).bind
      (OutputStream.writeValues cfg.host fields) <;> simp [written]
  · rw [MsgProtocol.checkString]
    split_ifs
    · exact ok_ne_error
    · exact require_ne_error (by simp)

theorem parseInput_ne (tmpMsg : Option Msg) :
    parseInput cfg env tmpMsg ≠ .error .sendHandler := by
  refine bind_ok_ne_error ?_
  rw [MsgProtocol.parse]
  split
  · exact ok_ne_error
  · exact ok_ne_error
  · simp
  · exact ok_ne_error
  · exact bind_ne_error (require_ne_error (by simp)) fun _ _ =>
      bind_ok_ne_error (require_ne_error (by simp))

theorem subscribe_ne (tm : TopicManager) (msg : Msg) :
    subscribe cfg tm h sh msg ≠ .error .sendHandler := by
  rw [subscribe]
  split_ifs
  · refine bind_ne_error ?_ fun r _ => bind_ok_ne_error ?_
    · refine bind_ne_error (require_ne_error (by simp)) fun _ _ => ?_
      split_ifs
      · exact bind_ok_ne_error (require_ne_error (by simp))
      · exact ok_ne_error
    · exact bind_ne_error (require_ne_error (by simp)) fun _ _ =>
        bind_ok_ne_error (require_ne_error (by simp))
  · exact bind_ok_ne_error (bind_ok_ne_error (require_ne_error (by simp)))

theorem onSubscriberMessage_ne (msg : Msg) :
    onSubscriberMessage cfg env b h sh msg ≠ .error .sendHandler := by
  rw [onSubscriberMessage]
  split_ifs
  · exact bind_ne_error (subscribe_ne _ _) fun _ _ => bind_ok_ne_error (reply_ne _ _)
  · exact bind_ok_ne_error (reply_ne _ _)
  · exact bind_ne_error (require_ne_error (by simp)) fun _ _ => bind_ok_ne_error (reply_ne _ _)
  · simp

theorem subscriberInput_ne : subscriberInput cfg env b h sh ≠ .error .sendHandler := by
  refine bind_ne_error (parseInput_ne _) fun r _ => ?_
  obtain ⟨result, msg⟩ := r
  cases result with
  | error => exact ok_ne_error
  | half => exact ok_ne_error
  | complete => exact onSubscriberMessage_ne msg

theorem closeSubscriber_ne (r : Bool × Broker) :
    closeSubscriber cfg h r ≠ .error .sendHandler := by
  rw [closeSubscriber]
  split
  · exact bind_ok_ne_error (require_ne_error (by simp))
  · exact ok_ne_error

theorem addMessageTo_ne (e : Event) (ids : List ClientId) (b : Broker) :
    addMessageTo_ e ids b ≠ .error .sendHandler := by
  induction ids generalizing b with
  | nil => exact ok_ne_error
  | cons id ids ih => exact bind_ne_error (require_ne_error (by simp)) fun _ _ => ih _

theorem onPublisherMessage_ne (ptr : MsgPtr) (msg : Msg) :
    onPublisherMessage cfg env b ptr msg ≠ .error .sendHandler := by
  rw [onPublisherMessage]
  split_ifs
  · exact bind_ok_ne_error (reply_ne _ _)
  · exact bind_ok_ne_error (reply_ne _ _)
  · exact bind_ne_error (require_ne_error (by simp)) fun _ _ =>
      bind_ne_error (require_ne_error (by simp)) fun _ _ => bind_ok_ne_error (addMessageTo_ne _ _ _)
  · exact bind_ne_error (require_ne_error (by simp)) fun _ _ =>
      bind_ok_ne_error (require_ne_error (by simp))

theorem publisherInput_ne (ph : PublisherHandler) :
    publisherInput cfg env b h ph ≠ .error .sendHandler := by
  refine bind_ne_error (parseInput_ne _) fun r _ => ?_
  obtain ⟨result, msg⟩ := r
  cases result with
  | error => exact ok_ne_error
  | half => exact ok_ne_error
  | complete => exact onPublisherMessage_ne _ msg

theorem checkHandler_ne {tm : TopicManager} (hid : tm.subscribers sh.id = some h) :
    checkHandler cfg tm h sh ≠ .error .sendHandler := by
  refine bind_ne_error (require_ne_error (by simp)) fun _ _ => ?_
  split_ifs
  · refine bind_ne_error (bind_ok_ne_error (require_ne_error (by simp))) fun handler hhandler => ?_
    obtain ⟨-, -, hhandler⟩ := bind_eq_ok.mp hhandler
    cases hhandler
    rw [require_eq_ok.mpr hid]
    exact ok_ne_error
  · exact ok_ne_error

theorem sendMessages_ne (hid : b.manager.subscribers sh.id = some h) (es : List Event)
    (rs : ℕ → SendResult) : sendMessages cfg env h sh es rs b ≠ .error .sendHandler := by
  -- A message that has been sent leaves the table of the handlers as it was.
  induction es generalizing rs b with
  | nil => exact ok_ne_error
  | cons e es ih =>
    refine bind_ne_error ?_ fun r hr => ?_
    · simp only [sendMessage]
      split_ifs
      · refine bind_ne_error (checkHandler_ne hid) fun _ _ => ?_
        split <;> exact ok_ne_error
      · exact ok_ne_error
    · obtain ⟨ok, b₁⟩ := r
      have hid₁ : b₁.manager.subscribers sh.id = some h := by
        rw [sendMessage_manager hr]
        exact hid
      cases ok with
      | false => exact ok_ne_error
      | true =>
        refine ih ?_ _
        rw [onMessageSent]
        split_ifs <;> exact hid₁

theorem subscriberOutput_ne (hid : b.manager.subscribers sh.id = some h) :
    subscriberOutput cfg env b h sh ≠ .error .sendHandler := by
  refine bind_ne_error ?_ fun messages _ => bind_ok_ne_error (sendMessages_ne hid _ _)
  rw [messagesOf]
  split_ifs
  · exact bind_ok_ne_error (require_ne_error (by simp))
  · exact ok_ne_error

theorem step_ne {log : List (ClientId × ℕ)} (hr : (b.registry log).Wf) (u : Upcall) :
    step cfg b u ≠ .error .sendHandler := by
  cases u with
  | acceptSubscriber h env =>
    rw [step]
    split_ifs <;> exact ok_ne_error
  | acceptPublisher h =>
    rw [step]
    split_ifs <;> exact ok_ne_error
  | subscriberReadable h env =>
    rw [step]
    cases b.subscriberHandlers h with
    | none => exact ok_ne_error
    | some sh => exact bind_ne_error subscriberInput_ne fun _ _ => closeSubscriber_ne _
  | subscriberWritable h env =>
    rw [step]
    cases hsh : b.subscriberHandlers h with
    | none => exact ok_ne_error
    | some sh =>
      by_cases hmask : sh.writeMask = true
      · have hentry : (b.registry log).handlers h = some sh.entry := registry_handlers hsh
        have hid := hr.subscribers_eq hentry (hr.marked h sh.entry hentry hmask)
        simp only [hmask, ↓reduceIte]
        exact bind_ne_error (subscriberOutput_ne hid) fun _ _ => closeSubscriber_ne _
      · simp only [hmask, Bool.false_eq_true, ↓reduceIte]
        exact ok_ne_error
  | publisherReadable h env =>
    rw [step]
    cases b.publisherHandlers h with
    | none => exact ok_ne_error
    | some ph =>
      refine bind_ne_error (publisherInput_ne ph) fun r _ => ?_
      rw [closePublisher]
      split
      · exact bind_ok_ne_error (require_ne_error (by simp))
      · exact ok_ne_error

end Assertion

end Broker

/-- The broker, and the subscriptions that were made: the id of each, and the number of its
connection, the last one first. -/
structure Traced where
  broker : Broker
  log : List (ClientId × ℕ)

namespace Traced

variable (cfg : Config)

def step (t : Traced) (u : Upcall) : Except Assertion Traced :=
  (Broker.step cfg t.broker u).map fun b =>
    ⟨b, (Broker.subscription cfg t.broker u).toList ++ t.log⟩

def Latest (t : Traced) : Prop :=
  ∀ id h, t.broker.manager.subscribers id = some h ↔ (t.broker.registry t.log).IsLatest id h

/-- **The table of the subscribers is right in every state of every run**, and the assertion of
`sendMessage` does not fail, while every client subscribes under an id that is free. The broker
starts with any saved subscriptions, and a next id that is not `0`. -/
theorem registered_latest (cfg : Config) (hbuf : cfg.enableBuffering = true)
    (subscriptionMap : AList fun _ : Topic => List ClientId) (nextAllocateClientId : ℕ)
    (hnext : 0 < nextAllocateClientId) (us : List Upcall)
    (hfree : EachStep (step cfg) (fun t => Broker.Unclaimed cfg t.broker)
      ⟨Broker.start subscriptionMap nextAllocateClientId, []⟩ us) :
    (∀ t, runSteps (step cfg) ⟨Broker.start subscriptionMap nextAllocateClientId, []⟩ us = .ok t →
      t.Latest) ∧
    runSteps (step cfg) ⟨Broker.start subscriptionMap nextAllocateClientId, []⟩ us ≠
      .error .sendHandler := by
  have hstart : ((Broker.start subscriptionMap nextAllocateClientId).registry []).Wf :=
    ⟨hnext, fun id h => by simp [start, registry], nofun, nofun, nofun, nofun,
      forall_mem_nil _, nofun⟩
  have hstep (t : Traced) (u : Upcall) (t' : Traced) (hr : (t.broker.registry t.log).Wf)
      (hu : Broker.Unclaimed cfg t.broker u) (hrun : step cfg t u = .ok t') :
      (t'.broker.registry t'.log).Wf := by
    obtain ⟨b, hb, rfl⟩ := map_eq_ok.mp hrun
    exact hr.reaches (step_reaches hbuf hr.next_pos hu hb)
  constructor
  · intro t hrun
    exact (runSteps_invariant hstep hstart hfree hrun).subscribers_iff
  · refine runSteps_ne_error hstep (fun t u hr _ hrun => ?_) hstart hfree
    rw [step] at hrun
    cases hb : Broker.step cfg t.broker u with
    | error a =>
      rw [hb] at hrun
      exact step_ne hr u (hb.trans (congrArg _ (Except.error.inj hrun)))
    | ok b =>
      rw [hb] at hrun
      cases hrun

def bufferingConfig : Config := { plainConfig with enableBuffering := true }

def subscribeOn (h : HandlerPtr) : Upcall :=
  .subscriberReadable h (frameAnswers 300 .subscribe
    (encodeString (ascii "t") ++ encodeString (ascii "1")))

def connectOn (h : HandlerPtr) : Upcall :=
  .acceptSubscriber h (frameAnswers 0 .subscribe [])

def endOf (h : HandlerPtr) : Upcall :=
  .subscriberReadable h { frameAnswers 300 .subscribe [] with recvs := fun _ => .bytes [] }

theorem registered_latest_reconnect :
    ∃ t, runSteps (step bufferingConfig) ⟨Broker.start ∅ 1, []⟩
        [connectOn 1, subscribeOn 1, endOf 1, connectOn 3, subscribeOn 3] = .ok t ∧
      t.Latest ∧ t.broker.manager.subscribers (ascii "1") = some 3 := by
  obtain ⟨t, hrun, htable⟩ : ∃ t, runSteps (step bufferingConfig) ⟨Broker.start ∅ 1, []⟩
      [connectOn 1, subscribeOn 1, endOf 1, connectOn 3, subscribeOn 3] = .ok t ∧
        t.broker.manager.subscribers (ascii "1") = some 3 :=
    map_eq_ok.mp (by decide +kernel)
  have hlatest := (registered_latest bufferingConfig rfl ∅ 1 Nat.one_pos
    [connectOn 1, subscribeOn 1, endOf 1, connectOn 3, subscribeOn 3] (by decide +kernel)).1
  exact ⟨t, hrun, hlatest t hrun, htable⟩

theorem early_reconnect_unregistered :
    (∃ t, runSteps (step bufferingConfig) ⟨Broker.start ∅ 1, []⟩
        [connectOn 1, subscribeOn 1, connectOn 3, subscribeOn 3, endOf 1] = .ok t ∧
      t.broker.manager.subscribers (ascii "1") = none ∧
      (t.broker.registry t.log).IsLatest (ascii "1") 3) ∧
    (runSteps (step bufferingConfig) ⟨Broker.start ∅ 1, []⟩
        [connectOn 1, subscribeOn 1, connectOn 3, subscribeOn 3, .acceptPublisher 2,
          Broker.eventAt 100, Broker.writable]).map (fun _ => ()) = .error .sendHandler := by
  obtain ⟨t, hrun, hstate⟩ : ∃ t, runSteps (step bufferingConfig) ⟨Broker.start ∅ 1, []⟩
      [connectOn 1, subscribeOn 1, connectOn 3, subscribeOn 3, endOf 1] = .ok t ∧
        (t.broker.manager.subscribers (ascii "1"),
          (t.broker.subscriberHandlers 3).map connection, t.log) =
        (none, some 1, [(ascii "1", 1), (ascii "1", 0)]) :=
    map_eq_ok.mp (by decide +kernel)
  obtain ⟨hnone, hrest⟩ := Prod.mk.inj hstate
  obtain ⟨hconn, hlog⟩ := Prod.mk.inj hrest
  obtain ⟨sh, hsh, hone⟩ := map_eq_some_iff.mp hconn
  refine ⟨⟨t, hrun, hnone, [], [(ascii "1", 0)], sh.entry, ?_, registry_handlers hsh,
    forall_mem_nil _⟩, by decide +kernel⟩
  change t.log = _
  rw [hlog, entry, hone]
  rfl

end Traced

end Icm.Messaging
