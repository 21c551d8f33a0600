import Icm.Messaging.Pending
import Icm.Messaging.Registry

/-!
# Every event is delivered once, or dropped

With buffering an event waits for every subscriber id that is recorded for its topic when it is
published.
-/

namespace Icm.Messaging

open Icm.Lib Icm.Stream List Broker

namespace PubMaps

variable {κ : Type} [DecidableEq κ] {p : PubMaps κ} {e a : Event} {k : κ}

theorem mem_insertAll_messages (ks : List κ)
    (hnew : ∀ k, ∀ a ∈ p.messages k, a.ptr = e.ptr → a = e) :
    a ∈ (p.insertAll e ks).messages k ↔ a ∈ p.messages k ∨ a = e ∧ k ∈ ks := by
  induction ks generalizing p with
  | nil => simp [insertAll]
  | cons k₁ ks ih =>
    -- entering the event once more changes nothing
    have hmem {k' : κ} {c : Event} :
        c ∈ (p.insert e k₁).messages k' ↔ c ∈ p.messages k' ∨ c = e ∧ k' = k₁ := by
      by_cases hk : k' = k₁
      · subst hk
        rw [insert_messages_self]
        constructor
        · intro hc
          rcases mem_of_mem_insertEvent hc with rfl | hc
          · exact Or.inr ⟨rfl, rfl⟩
          · exact Or.inl hc
        · rintro (hc | ⟨rfl, -⟩)
          · exact mem_insertEvent_of_mem hc
          · obtain ⟨d, hd, hptr⟩ := exists_mem_insertEvent c (p.messages k')
            rcases mem_of_mem_insertEvent hd with rfl | hd'
            · exact hd
            · rwa [hnew k' d hd' hptr] at hd
      · rw [insert_messages_of_ne p e hk]
        simp only [hk, and_false, or_false]
    have hrest := ih (p := p.insert e k₁) fun k' c hc hptr => by
      rcases hmem.mp hc with hc | ⟨rfl, -⟩
      · exact hnew k' c hc hptr
      · rfl
    rw [show p.insertAll e (k₁ :: ks) = (p.insert e k₁).insertAll e ks from rfl, hrest, hmem,
      mem_cons, or_assoc, ← and_or_left]

end PubMaps

namespace Broker

variable {cfg : Config} {env : Answers} {b b' : Broker} {h : HandlerPtr} {sh : SubscriberHandler}
  {ok : Bool} {n : ℕ} {id : ClientId} {frame : List UInt8}

def Waits (n : ℕ) (id : ClientId) (b : Broker) : Prop :=
  ∃ e ∈ b.manager.pubs_.messages id, e.serial = n

def deliveries (n : ℕ) (id : ClientId) (frame : List UInt8) (b : Broker) : ℕ :=
  b.sent.countP fun s => s.serial = n ∧ s.id = id ∧ s.bytes = frame

def Records (cfg : Config) (n : ℕ) (id : ClientId) (frame : List UInt8) (b : Broker) (u : Upcall)
    (_ : Broker) : Prop :=
  b.received = n ∧ ∃ p ∈ published cfg b u, p.2.forwarded = frame ∧
    id ∈ b.manager.subscribersOf p.2.topic

def Flushes (cfg : Config) (n : ℕ) (id : ClientId) (b : Broker) (u : Upcall) (_ : Broker) : Prop :=
  (published cfg b u).isSome ∧ maxBufferSize ≤ b.manager.pubs_.clients.keys.length ∧ b.Waits n id

def Expires (n : ℕ) (id : ClientId) (b : Broker) (u : Upcall) (b' : Broker) : Prop :=
  ∃ h env sh, u = .subscriberWritable h env ∧ b.subscriberHandlers h = some sh ∧ sh.id = id ∧
    (∃ e ∈ b.manager.pubs_.messages id, e.serial = n ∧ e.msg.TooOld env.now) ∧ ¬ b'.Waits n id

def Drops (cfg : Config) (n : ℕ) (id : ClientId) (b : Broker) (u : Upcall) (b' : Broker) : Prop :=
  Flushes cfg n id b u b' ∨ Expires n id b u b'

def FreshPtr (cfg : Config) (b : Broker) (u : Upcall) : Prop :=
  ∀ p ∈ published cfg b u, p.1 ∉ b.manager.pubs_.clients ∧ p.1 ∉ b.manager.pubs.clients

instance (cfg : Config) (n : ℕ) (id : ClientId) (frame : List UInt8) (b : Broker) (u : Upcall)
    (b' : Broker) : Decidable (Records cfg n id frame b u b') :=
  inferInstanceAs (Decidable (_ ∧ ∃ p ∈ published cfg b u, _ ∧ _))

instance (cfg : Config) (b : Broker) (u : Upcall) : Decidable (FreshPtr cfg b u) :=
  inferInstanceAs (Decidable (∀ p ∈ published cfg b u, _ ∧ _))

theorem deliveries_append (b : Broker) (new : List Sent) :
    deliveries n id frame { b with sent := b.sent ++ new } =
      deliveries n id frame b + new.countP fun s => s.serial = n ∧ s.id = id ∧ s.bytes = frame :=
  countP_append

variable {es : List Event}

theorem Sends.deliveries_eq (hs : Sends cfg h sh es b b')
    (hother : sh.id ≠ id ∨ ∀ e ∈ es, e.serial ≠ n) :
    deliveries n id frame b' = deliveries n id frame b := by
  obtain ⟨new, hnew, hserial, hconn⟩ := hs.sent
  rw [deliveries, deliveries, hnew, countP_append, Nat.add_eq_left, countP_eq_zero]
  intro s hs' hmatch
  obtain ⟨hn, hid, -⟩ := of_decide_eq_true hmatch
  rcases hother with hne | hne
  · exact hne ((hconn s hs').2.symm.trans hid)
  · obtain ⟨e, he, heq⟩ := mem_map.mp (hserial.subset (mem_map_of_mem hs'))
    exact hne e he (heq.trans hn)

theorem sendMessages_fate {rs : ℕ → SendResult} {e₀ : Event}
    (hbuf : cfg.enableBuffering = true) (hsorted : es.Pairwise fun a b => a.ptr < b.ptr)
    (hes : ∀ e ∈ es, e ∈ b.manager.pubs_.messages sh.id) (he₀ : e₀ ∈ es)
    (huniq : ∀ a ∈ b.manager.pubs_.messages sh.id, a.serial = e₀.serial → a = e₀)
    (hrun : sendMessages cfg env h sh es rs b = .ok (ok, b')) :
    e₀ ∈ b'.manager.pubs_.messages sh.id ∧
      deliveries e₀.serial sh.id e₀.msg.forwarded b' =
        deliveries e₀.serial sh.id e₀.msg.forwarded b ∨
    ¬ b'.Waits e₀.serial sh.id ∧ ¬ e₀.msg.TooOld env.now ∧
      deliveries e₀.serial sh.id e₀.msg.forwarded b' =
        deliveries e₀.serial sh.id e₀.msg.forwarded b + 1 ∨
    ¬ b'.Waits e₀.serial sh.id ∧ e₀.msg.TooOld env.now ∧
      deliveries e₀.serial sh.id e₀.msg.forwarded b' =
        deliveries e₀.serial sh.id e₀.msg.forwarded b := by
  induction es generalizing rs b with
  | nil => cases he₀
  | cons e es ih =>
    obtain ⟨hhead, htail⟩ := pairwise_cons.mp hsorted
    obtain ⟨hmem, hes⟩ := forall_mem_cons.mp hes
    obtain ⟨⟨ok₁, b₁⟩, hsend, hloop⟩ := bind_eq_ok.mp hrun
    have hmanager := sendMessage_manager hsend
    have hafter (a : Event) : a ∈ (onMessageSent cfg b₁ h sh e).manager.pubs_.messages sh.id ↔
        a ∈ b.manager.pubs_.messages sh.id ∧ a.ptr ≠ e.ptr := by
      simp only [onMessageSent, hbuf, ↓reduceIte, hmanager, PubMaps.onMessageSent_messages_self,
        mem_eraseEvent]
    by_cases hcase : e = e₀
    · -- its turn: the rest of the loop leaves it alone
      subst hcase
      have hgone : ¬ (onMessageSent cfg b₁ h sh e).Waits e.serial sh.id := by
        rintro ⟨a, ha, hserial⟩
        obtain ⟨ha, hne⟩ := (hafter a).mp ha
        exact hne (congrArg Event.ptr (huniq a ha hserial))
      have hrest (hok : ok₁ = true) : ¬ b'.Waits e.serial sh.id ∧
          deliveries e.serial sh.id e.msg.forwarded b' =
            deliveries e.serial sh.id e.msg.forwarded b₁ := by
        rw [hok] at hloop
        obtain ⟨hsends, -⟩ := sendMessages_sends hloop
        constructor
        · rintro ⟨a, ha, hserial⟩
          have hsub := hsends.pending h sh.id
          rw [pending_of_buffering hbuf, pending_of_buffering hbuf] at hsub
          exact hgone ⟨a, hsub.subset ha, hserial⟩
        · refine hsends.deliveries_eq (Or.inr fun a ha heq => ?_)
          rw [huniq a (hes a ha) heq] at ha
          exact lt_irrefl _ (hhead e ha)
      rcases sendMessage_spec hsend with
        ⟨hold, rfl, rfl⟩ | ⟨hnot, rfl, rfl⟩ | ⟨hnot, room, hok, rfl⟩
      · exact Or.inr (Or.inr ⟨(hrest rfl).1, hold, (hrest rfl).2⟩)
      · cases hloop
        exact Or.inl ⟨hmem, rfl⟩
      · by_cases hroom : e.msg.forwarded.length ≤ room
        · obtain ⟨hwaits, hdeliveries⟩ := hrest (hok.trans (decide_eq_true hroom))
          refine Or.inr (Or.inl ⟨hwaits, hnot, ?_⟩)
          rw [hdeliveries, deliveries_append, take_of_length_le hroom]
          simp
        · rw [decide_eq_false hroom] at hok
          subst hok
          cases hloop
          refine Or.inl ⟨hmem, ?_⟩
          have hpart : e.msg.forwarded.take room ≠ e.msg.forwarded := by
            intro heq
            have hlen := congrArg length heq
            rw [length_take] at hlen
            omega
          rw [deliveries_append]
          simp [hpart]
    · have he₀ : e₀ ∈ es := (mem_cons.mp he₀).resolve_left (Ne.symm hcase)
      have hserial : e.serial ≠ e₀.serial := fun heq => hcase (huniq e hmem heq)
      have hsame : deliveries e₀.serial sh.id e₀.msg.forwarded b₁ =
          deliveries e₀.serial sh.id e₀.msg.forwarded b := by
        rcases sendMessage_cases hsend with rfl | ⟨bytes, rfl⟩
        · rfl
        · rw [deliveries_append]
          simp [hserial]
      cases ok₁ with
      | false =>
        cases hloop
        exact Or.inl ⟨by rw [hmanager]; exact hes e₀ he₀, hsame⟩
      | true =>
        rw [← hsame]
        exact ih (b := onMessageSent cfg b₁ h sh e) htail
          (fun a ha => (hafter a).mpr ⟨hes a ha, (hhead a ha).ne'⟩) he₀
          (fun a ha => huniq a ((hafter a).mp ha).1) hloop

structure Numbered (b : Broker) : Prop where
  inverse : b.manager.pubs_.Inverse
  waits_lt : ∀ id, ∀ e ∈ b.manager.pubs_.messages id, e.serial < b.received
  serial_inj : ∀ id, ∀ e ∈ b.manager.pubs_.messages id, ∀ e' ∈ b.manager.pubs_.messages id,
    e.serial = e'.serial → e = e'
  sent_lt : ∀ s ∈ b.sent, s.serial < b.received

theorem Numbered.unknown (hb : b.Numbered) (id : ClientId) (frame : List UInt8)
    (hn : b.received ≤ n) :
    ¬ b.Waits n id ∧ deliveries n id frame b = 0 := by
  constructor
  · rintro ⟨e, he, rfl⟩
    exact (hb.waits_lt id e he).not_ge hn
  · refine countP_eq_zero.mpr fun s hs hmatch => ?_
    obtain ⟨rfl, -⟩ := of_decide_eq_true hmatch
    exact (hb.sent_lt s hs).not_ge hn

theorem Numbered.congr (hb : b.Numbered) (hsame : SameMessages b b') : b'.Numbered := by
  refine ⟨?_, ?_, ?_, ?_⟩
  · rw [hsame.pubs_]
    exact hb.inverse
  · rw [hsame.pubs_, hsame.received]
    exact hb.waits_lt
  · rw [hsame.pubs_]
    exact hb.serial_inj
  · rw [hsame.sent, hsame.received]
    exact hb.sent_lt

def WaitsAs (n : ℕ) (id : ClientId) (frame : List UInt8) (b : Broker) : Prop :=
  ∃ e ∈ b.manager.pubs_.messages id, e.serial = n ∧ e.msg.forwarded = frame

theorem mem_messages_publish {ptr : MsgPtr} {msg : Msg} {ids : List ClientId}
    (hb : b.Numbered) (hfresh : ptr ∉ b.manager.pubs_.clients)
    (hpubs_ : b'.manager.pubs_ =
      b.manager.pubs_.checkBufferSize.insertAll ⟨ptr, msg, b.received⟩ ids)
    (id : ClientId) (e : Event) :
    e ∈ b'.manager.pubs_.messages id ↔
      (¬ maxBufferSize ≤ b.manager.pubs_.clients.keys.length ∧
        e ∈ b.manager.pubs_.messages id) ∨
      e = ⟨ptr, msg, b.received⟩ ∧ id ∈ ids := by
  have hchecked (k : ClientId) (a : Event) : a ∈ b.manager.pubs_.checkBufferSize.messages k ↔
      ¬ maxBufferSize ≤ b.manager.pubs_.clients.keys.length ∧
        a ∈ b.manager.pubs_.messages k := by
    rw [PubMaps.checkBufferSize]
    split_ifs with hfull
    · simp [PubMaps.empty, hfull]
    · simp [hfull]
  rw [hpubs_, PubMaps.mem_insertAll_messages, hchecked]
  intro k a ha hptr
  refine absurd ?_ hfresh
  rw [← show a.ptr = ptr from hptr]
  exact hb.inverse.mem_clients ((hchecked k a).mp ha).2

theorem sendMessages_pubs_ {rs : ℕ → SendResult}
    (hbuf : cfg.enableBuffering = true) (hb : b.manager.pubs_.Inverse)
    (hrun : sendMessages cfg env h sh es rs b = .ok (ok, b')) :
    b'.manager.pubs_.Inverse ∧
      ∀ id, id ≠ sh.id → b'.manager.pubs_.messages id = b.manager.pubs_.messages id := by
  induction es generalizing rs b with
  | nil =>
    cases hrun
    exact ⟨hb, fun _ _ => rfl⟩
  | cons e es ih =>
    obtain ⟨⟨ok₁, b₁⟩, hsend, hrun⟩ := bind_eq_ok.mp hrun
    have hmanager := sendMessage_manager hsend
    cases ok₁ with
    | false =>
      cases hrun
      rw [hmanager]
      exact ⟨hb, fun _ _ => rfl⟩
    | true =>
      have hpubs_ : (onMessageSent cfg b₁ h sh e).manager.pubs_ =
          b.manager.pubs_.onMessageSent e.ptr sh.id := by
        simp only [onMessageSent, hbuf, ↓reduceIte, hmanager]
      obtain ⟨hinverse, hother⟩ := ih (by rw [hpubs_]; exact hb.onMessageSent e.ptr sh.id) hrun
      refine ⟨hinverse, fun id hid => ?_⟩
      rw [hother id hid, hpubs_, PubMaps.onMessageSent_messages_of_ne _ _ hid]

variable {u : Upcall}

theorem Numbered.step (hb : b.Numbered) (hbuf : cfg.enableBuffering = true)
    (hu : FreshPtr cfg b u) (hrun : step cfg b u = .ok b') : b'.Numbered := by
  cases step_tableStep hrun with
  | quiet _ hsame => exact hb.congr hsame
  | publish_ ptr msg hsome _ pubs_ pubs received sent =>
    have hmem {id : ClientId} {e : Event} (he : e ∈ b'.manager.pubs_.messages id) :
        e ∈ b.manager.pubs_.messages id ∨ e = ⟨ptr, msg, b.received⟩ :=
      ((mem_messages_publish hb (hu _ hsome).1 pubs_ _ _).mp he).imp And.right And.left
    refine ⟨?_, fun id e he => ?_, fun id e he e' he' heq => ?_, fun s hs => ?_⟩
    · rw [pubs_]
      exact hb.inverse.checkBufferSize.insertAll _ _
    · rw [received]
      rcases hmem he with he | rfl
      · exact (hb.waits_lt id e he).trans (Nat.lt_succ_self _)
      · exact Nat.lt_succ_self _
    · rcases hmem he with he | rfl <;> rcases hmem he' with he' | rfl
      · exact hb.serial_inj id e he e' he' heq
      · exact absurd heq (hb.waits_lt id e he).ne
      · exact absurd heq.symm (hb.waits_lt id e' he').ne
      · rfl
    · rw [sent] at hs
      rw [received]
      exact (hb.sent_lt s hs).trans (Nat.lt_succ_self _)
  | publish _ _ _ _ hplain => exact absurd hbuf (by rw [hplain]; exact nofun)
  | write h env sh ok b₁ _ hsh hsend hsame =>
    refine Numbered.congr ?_ hsame
    obtain ⟨hsends, -⟩ := sendMessages_sends hsend
    have hsub (id : ClientId) (e : Event) (he : e ∈ b₁.manager.pubs_.messages id) :
        e ∈ b.manager.pubs_.messages id := by
      have hpending := hsends.pending h id
      rw [pending_of_buffering hbuf, pending_of_buffering hbuf] at hpending
      exact hpending.subset he
    refine ⟨(sendMessages_pubs_ hbuf hb.inverse hsend).1, fun id e he => ?_,
      fun id e he e' he' => hb.serial_inj id e (hsub id e he) e' (hsub id e' he'), ?_⟩
    · rw [hsends.received]
      exact hb.waits_lt id e (hsub id e he)
    · obtain ⟨new, hnew, hserial, -⟩ := hsends.sent
      rw [hnew, hsends.received]
      refine forall_mem_append.mpr ⟨hb.sent_lt, fun s hs => ?_⟩
      obtain ⟨e, he, heq⟩ := mem_map.mp (hserial.subset (mem_map_of_mem hs))
      rw [pending_of_buffering hbuf] at he
      rw [← heq]
      exact hb.waits_lt sh.id e he

theorem Waits.congr (hsame : SameMessages b b') : b'.Waits n id ↔ b.Waits n id := by
  rw [Waits, Waits, hsame.pubs_]

theorem deliveries_congr (hsame : SameMessages b b') :
    deliveries n id frame b' = deliveries n id frame b := by
  rw [deliveries, deliveries, hsame.sent]

theorem Waits.not_drops (hw : b'.Waits n id)
    (hroom : (published cfg b u).isSome → ¬ maxBufferSize ≤ b.manager.pubs_.clients.keys.length) :
    ¬ Drops cfg n id b u b' := by
  rintro (⟨hsome, hfull, -⟩ | ⟨h, env, sh, -, -, -, -, hgone⟩)
  · exact hroom hsome hfull
  · exact hgone hw

theorem Waits.not_drops_of_none (hw : b'.Waits n id)
    (hnone : published cfg b u = none) : ¬ Drops cfg n id b u b' :=
  hw.not_drops fun hsome => absurd hsome (by rw [hnone]; exact nofun)

theorem not_drops_of_not_waits (hw : ¬ b.Waits n id) :
    ¬ Drops cfg n id b u b' := by
  rintro (⟨-, -, hwaits⟩ | ⟨h, env, sh, -, -, -, ⟨e, he, hserial, -⟩, -⟩)
  · exact hw hwaits
  · exact hw ⟨e, he, hserial⟩

section Fate

variable {u : Upcall} (hbuf : cfg.enableBuffering = true) (hb : b.Numbered)
  (hu : FreshPtr cfg b u) (hrun : step cfg b u = .ok b')

include hbuf hb hu hrun

theorem waiting_step (hw : b.WaitsAs n id frame) :
    b'.WaitsAs n id frame ∧ deliveries n id frame b' = deliveries n id frame b ∧
      ¬ Drops cfg n id b u b' ∨
    ¬ b'.Waits n id ∧ deliveries n id frame b' = deliveries n id frame b + 1 ∧
      ¬ Drops cfg n id b u b' ∨
    ¬ b'.Waits n id ∧ deliveries n id frame b' = deliveries n id frame b ∧
      Drops cfg n id b u b' := by
  obtain ⟨e₀, he₀, rfl, rfl⟩ := hw
  cases step_tableStep hrun with
  | quiet hnone hsame =>
    have he₀' : e₀ ∈ b'.manager.pubs_.messages id := by
      rw [hsame.pubs_]
      exact he₀
    refine Or.inl ⟨⟨e₀, he₀', rfl, rfl⟩, deliveries_congr hsame, ?_⟩
    exact Waits.not_drops_of_none ⟨e₀, he₀', rfl⟩ hnone
  | publish_ ptr msg hsome _ pubs_ pubs received sent =>
    have hdeliveries : deliveries e₀.serial id e₀.msg.forwarded b' =
        deliveries e₀.serial id e₀.msg.forwarded b := by
      rw [deliveries, deliveries, sent]
    have hmem := mem_messages_publish hb (hu _ hsome).1 pubs_ id
    by_cases hfull : maxBufferSize ≤ b.manager.pubs_.clients.keys.length
    · refine Or.inr (Or.inr ⟨?_, hdeliveries, Or.inl ⟨by rw [hsome]; rfl, hfull, e₀, he₀, rfl⟩⟩)
      rintro ⟨e, he, hserial⟩
      rcases (hmem e).mp he with ⟨hroom, -⟩ | ⟨rfl, -⟩
      · exact hroom hfull
      · exact (hb.waits_lt id e₀ he₀).ne' hserial
    · have he₀' : e₀ ∈ b'.manager.pubs_.messages id := (hmem e₀).mpr (Or.inl ⟨hfull, he₀⟩)
      exact Or.inl ⟨⟨e₀, he₀', rfl, rfl⟩, hdeliveries,
        Waits.not_drops ⟨e₀, he₀', rfl⟩ fun _ => hfull⟩
  | publish _ _ _ _ hplain => exact absurd hbuf (by rw [hplain]; exact nofun)
  | write h env sh ok b₁ hwrite hsh hsend hsame =>
    have hnone : published cfg b u = none := by rw [hwrite]; rfl
    rw [deliveries_congr hsame]
    simp only [Waits.congr hsame]
    by_cases hid : sh.id = id
    · subst hid
      rw [pending_of_buffering hbuf] at hsend
      have huniq (a : Event) (ha : a ∈ b.manager.pubs_.messages sh.id)
          (heq : a.serial = e₀.serial) : a = e₀ := hb.serial_inj sh.id a ha e₀ he₀ heq
      rcases sendMessages_fate hbuf (hb.inverse.sorted sh.id) (fun _ he => he) he₀ huniq hsend with
        ⟨hwaits, hdeliveries⟩ | ⟨hgone, hyoung, hdeliveries⟩ | ⟨hgone, hold, hdeliveries⟩
      · rw [← hsame.pubs_] at hwaits
        refine Or.inl ⟨⟨e₀, hwaits, rfl, rfl⟩, hdeliveries, ?_⟩
        exact Waits.not_drops_of_none ⟨e₀, hwaits, rfl⟩ hnone
      · refine Or.inr (Or.inl ⟨hgone, hdeliveries, ?_⟩)
        rintro (⟨hsome, -⟩ | ⟨h', env', sh', hu', -, -, ⟨e, he, hserial, hold⟩, -⟩)
        · rw [hnone] at hsome
          cases hsome
        · obtain ⟨rfl, rfl⟩ := Upcall.subscriberWritable.inj (hwrite.symm.trans hu')
          rw [huniq e he hserial] at hold
          exact hyoung hold
      · refine Or.inr (Or.inr ⟨hgone, hdeliveries, Or.inr ⟨h, env, sh, hwrite, hsh, rfl,
          ⟨e₀, he₀, rfl, hold⟩, ?_⟩⟩)
        rwa [Waits.congr hsame]
    · obtain ⟨hsends, -⟩ := sendMessages_sends hsend
      have he₀' : e₀ ∈ b'.manager.pubs_.messages id := by
        rw [hsame.pubs_, (sendMessages_pubs_ hbuf hb.inverse hsend).2 id (Ne.symm hid)]
        exact he₀
      refine Or.inl ⟨⟨e₀, he₀', rfl, rfl⟩, hsends.deliveries_eq (Or.inl hid), ?_⟩
      exact Waits.not_drops_of_none ⟨e₀, he₀', rfl⟩ hnone

theorem gone_step (frame : List UInt8) (hn : n < b.received) (hw : ¬ b.Waits n id) :
    n < b'.received ∧ ¬ b'.Waits n id ∧
      deliveries n id frame b' = deliveries n id frame b ∧ ¬ Drops cfg n id b u b' := by
  have hdrops : ¬ Drops cfg n id b u b' := not_drops_of_not_waits hw
  cases step_tableStep hrun with
  | quiet hnone hsame =>
    rw [hsame.received, Waits.congr hsame]
    exact ⟨hn, hw, deliveries_congr hsame, hdrops⟩
  | publish_ ptr msg hsome _ pubs_ pubs received sent =>
    refine ⟨by omega, ?_, by rw [deliveries, deliveries, sent], hdrops⟩
    rintro ⟨e, he, hserial⟩
    rcases (mem_messages_publish hb (hu _ hsome).1 pubs_ id e).mp he with ⟨-, hold⟩ | ⟨rfl, -⟩
    · exact hw ⟨e, hold, hserial⟩
    · exact hn.ne' hserial
  | publish _ _ _ _ hplain => exact absurd hbuf (by rw [hplain]; exact nofun)
  | write h env sh ok b₁ hwrite hsh hsend hsame =>
    obtain ⟨hsends, -⟩ := sendMessages_sends hsend
    rw [hsame.received, hsends.received, Waits.congr hsame, deliveries_congr hsame]
    refine ⟨hn, ?_, hsends.deliveries_eq ?_, hdrops⟩
    · rintro ⟨e, he, hserial⟩
      have hsub := hsends.pending h id
      rw [pending_of_buffering hbuf, pending_of_buffering hbuf] at hsub
      exact hw ⟨e, hsub.subset he, hserial⟩
    · by_cases hid : sh.id = id
      · subst hid
        rw [pending_of_buffering hbuf]
        exact Or.inr fun e he hserial => hw ⟨e, he, hserial⟩
      · exact Or.inl hid

theorem records_step (hrec : Records cfg n id frame b u b') :
    b'.WaitsAs n id frame ∧ deliveries n id frame b' = 0 ∧ ¬ Drops cfg n id b u b' := by
  obtain ⟨hn, p, hp, hframe, hid⟩ := hrec
  obtain ⟨hunknown, hzero⟩ := hb.unknown id frame hn.le
  have hdrops : ¬ Drops cfg n id b u b' := not_drops_of_not_waits hunknown
  cases step_tableStep hrun with
  | quiet hnone hsame =>
    rw [hnone] at hp
    cases hp
  | publish_ ptr msg hsome _ pubs_ pubs received sent =>
    obtain rfl := Option.some.inj (hsome.symm.trans hp)
    refine ⟨⟨⟨ptr, msg, b.received⟩, ?_, hn, hframe⟩, ?_, hdrops⟩
    · exact (mem_messages_publish hb (hu _ hsome).1 pubs_ _ _).mpr (Or.inr ⟨rfl, hid⟩)
    · rw [← hzero, deliveries, deliveries, sent]
  | publish _ _ _ _ hplain => exact absurd hbuf (by rw [hplain]; exact nofun)
  | write h env sh ok b₁ hwrite hsh hsend hsame =>
    rw [hwrite] at hp
    cases hp

end Fate

section Runs

variable {us : List Upcall} (hbuf : cfg.enableBuffering = true) (hb : b.Numbered)
  (hu : EachStep (step cfg) (FreshPtr cfg) b us)
  (hrun : runSteps (step cfg) b us = .ok b')

omit hu in
theorem not_records_of_lt (hn : n < b.received) :
    ¬ SomeStep (step cfg) (Records cfg n id frame) b us := by
  induction us generalizing b with
  | nil => exact nofun
  | cons u us ih =>
    rintro ⟨b₁, hstep, hrec | hlater⟩
    · exact hn.ne' hrec.1
    · exact ih (hn.trans_le (le_of_add_le_left (received_of_step hstep).ge)) hlater

include hbuf hb hu hrun

theorem gone_run (frame : List UInt8) (hn : n < b.received) (hw : ¬ b.Waits n id) :
    ¬ b'.Waits n id ∧ deliveries n id frame b' = deliveries n id frame b ∧
      ¬ SomeStep (step cfg) (Drops cfg n id) b us := by
  induction us generalizing b with
  | nil =>
    cases hrun
    exact ⟨hw, rfl, nofun⟩
  | cons u us ih =>
    obtain ⟨b₁, hstep, hrun⟩ := runSteps_cons_eq_ok.mp hrun
    obtain ⟨hn₁, hw₁, hdeliveries, hdrops⟩ :=
      gone_step hbuf hb hu.1 hstep frame hn hw
    obtain ⟨hw', hdeliveries', hdrops'⟩ :=
      ih (hb.step hbuf hu.1 hstep) (hu.2 b₁ hstep) hrun hn₁ hw₁
    refine ⟨hw', hdeliveries'.trans hdeliveries, ?_⟩
    rw [someStep_cons_of_ok hstep]
    exact not_or.mpr ⟨hdrops, hdrops'⟩

theorem waiting_run (hw : b.WaitsAs n id frame) (hzero : deliveries n id frame b = 0) :
    b'.Waits n id ∧ deliveries n id frame b' = 0 ∧
      ¬ SomeStep (step cfg) (Drops cfg n id) b us ∨
    ¬ b'.Waits n id ∧ deliveries n id frame b' = 1 ∧
      ¬ SomeStep (step cfg) (Drops cfg n id) b us ∨
    ¬ b'.Waits n id ∧ deliveries n id frame b' = 0 ∧
      SomeStep (step cfg) (Drops cfg n id) b us := by
  induction us generalizing b with
  | nil =>
    cases hrun
    obtain ⟨e, he, hserial, -⟩ := hw
    exact Or.inl ⟨⟨e, he, hserial⟩, hzero, nofun⟩
  | cons u us ih =>
    obtain ⟨b₁, hstep, hrun⟩ := runSteps_cons_eq_ok.mp hrun
    have hb₁ := hb.step hbuf hu.1 hstep
    have hn₁ : n < b₁.received := by
      obtain ⟨e, he, rfl, -⟩ := hw
      exact (hb.waits_lt id e he).trans_le (le_of_add_le_left (received_of_step hstep).ge)
    simp only [someStep_cons_of_ok hstep]
    rcases waiting_step hbuf hb hu.1 hstep hw with
      ⟨hw₁, hsame, hdrops⟩ | ⟨hgone, hone, hdrops⟩ | ⟨hgone, hsame, hdrops⟩
    · rw [hzero] at hsame
      simp only [hdrops, false_or]
      exact ih hb₁ (hu.2 b₁ hstep) hrun hw₁ hsame
    · obtain ⟨hw', hdeliveries', hdrops'⟩ :=
        gone_run hbuf hb₁ (hu.2 b₁ hstep) hrun frame hn₁ hgone
      rw [hone, hzero] at hdeliveries'
      exact Or.inr (Or.inl ⟨hw', hdeliveries', not_or.mpr ⟨hdrops, hdrops'⟩⟩)
    · obtain ⟨hw', hdeliveries', -⟩ :=
        gone_run hbuf hb₁ (hu.2 b₁ hstep) hrun frame hn₁ hgone
      rw [hsame, hzero] at hdeliveries'
      exact Or.inr (Or.inr ⟨hw', hdeliveries', Or.inl hdrops⟩)

theorem recorded_run (hn : b.received ≤ n)
    (hrec : SomeStep (step cfg) (Records cfg n id frame) b us) :
    b'.Waits n id ∧ deliveries n id frame b' = 0 ∧
      ¬ SomeStep (step cfg) (Drops cfg n id) b us ∨
    ¬ b'.Waits n id ∧ deliveries n id frame b' = 1 ∧
      ¬ SomeStep (step cfg) (Drops cfg n id) b us ∨
    ¬ b'.Waits n id ∧ deliveries n id frame b' = 0 ∧
      SomeStep (step cfg) (Drops cfg n id) b us := by
  induction us generalizing b with
  | nil => cases hrec
  | cons u us ih =>
    obtain ⟨b₁, hstep, hrun⟩ := runSteps_cons_eq_ok.mp hrun
    have hb₁ := hb.step hbuf hu.1 hstep
    simp only [someStep_cons_of_ok hstep]
    rcases (someStep_cons_of_ok hstep).mp hrec with hnow | hlater
    · obtain ⟨hw₁, hzero, hdrops⟩ := records_step hbuf hb hu.1 hstep hnow
      simp only [hdrops, false_or]
      exact waiting_run hbuf hb₁ (hu.2 b₁ hstep) hrun hw₁ hzero
    · have hdrops : ¬ Drops cfg n id b u b₁ :=
        not_drops_of_not_waits (hb.unknown id frame hn).1
      have hn₁ : b₁.received ≤ n := by
        by_contra hlt
        exact not_records_of_lt (not_le.mp hlt) hlater
      simp only [hdrops, false_or]
      exact ih hb₁ (hu.2 b₁ hstep) hrun hn₁ hlater

end Runs

/-- **Every event is delivered once, or dropped.** -/
theorem delivered_once (cfg : Config) (hbuf : cfg.enableBuffering = true)
    (subscriptionMap : AList fun _ : Topic => List ClientId) (nextAllocateClientId : ℕ)
    (us : List Upcall) (b : Broker)
    (hfresh : EachStep (step cfg) (FreshPtr cfg)
      (start subscriptionMap nextAllocateClientId) us)
    (hrun : runSteps (step cfg) (start subscriptionMap nextAllocateClientId) us = .ok b)
    (n : ℕ) (id : ClientId) (frame : List UInt8)
    (hrec : SomeStep (step cfg) (Records cfg n id frame)
      (start subscriptionMap nextAllocateClientId) us) :
    b.Waits n id ∧ deliveries n id frame b = 0 ∧
      ¬ SomeStep (step cfg) (Drops cfg n id)
        (start subscriptionMap nextAllocateClientId) us ∨
    ¬ b.Waits n id ∧ deliveries n id frame b = 1 ∧
      ¬ SomeStep (step cfg) (Drops cfg n id)
        (start subscriptionMap nextAllocateClientId) us ∨
    ¬ b.Waits n id ∧ deliveries n id frame b = 0 ∧
      SomeStep (step cfg) (Drops cfg n id)
        (start subscriptionMap nextAllocateClientId) us := by
  have hstart : (start subscriptionMap nextAllocateClientId).Numbered :=
    ⟨.empty, fun _ => forall_mem_nil _, fun _ => forall_mem_nil _, forall_mem_nil _⟩
  exact recorded_run hbuf hstart hfresh hrun (Nat.zero_le n) hrec

def awayAndBack : List Upcall :=
  [Traced.connectOn 1, Traced.subscribeOn 1, Traced.endOf 1, .acceptPublisher 2, eventAt 100,
    Traced.connectOn 1, Traced.subscribeOn 1, writable]

theorem delivered_once_away :
    ∃ b, runSteps (step Traced.bufferingConfig) (start ∅ 1) awayAndBack = .ok b ∧
      ¬ b.Waits 0 (ascii "1") ∧
      deliveries 0 (ascii "1") (wire 4 6 ++ [MsgType.event.toOctet] ++ encodeString (ascii "t")) b =
        1 := by
  have hcount : (runSteps (step Traced.bufferingConfig) (start ∅ 1) awayAndBack).map
      (deliveries 0 (ascii "1")
        (wire 4 6 ++ [MsgType.event.toOctet] ++ encodeString (ascii "t"))) = .ok 1 := by
    decide +kernel
  obtain ⟨b, hrun, hone⟩ := map_eq_ok.mp hcount
  refine ⟨b, hrun, ?_, hone⟩
  rcases delivered_once Traced.bufferingConfig rfl ∅ 1 awayAndBack b (by decide +kernel) hrun 0
    (ascii "1") (wire 4 6 ++ [MsgType.event.toOctet] ++ encodeString (ascii "t"))
    (by decide +kernel) with ⟨-, hzero, -⟩ | ⟨hgone, -, -⟩ | ⟨hgone, -, -⟩
  · rw [hone] at hzero
    cases hzero
  · exact hgone
  · exact hgone

end Broker

end Icm.Messaging
