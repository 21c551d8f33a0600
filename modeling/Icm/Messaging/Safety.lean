import Icm.Messaging.Registry

/-!
# The assertions of the broker

The broker is built with assertions, and several of them are about what a client sends.
-/

namespace Icm.Messaging

open Icm.Lib Icm.Stream MsgProtocol Option MsgType TopicManager List

def Control : Value → Prop
  | .string _ | .int _ | .boolean _ => True
  | _ => False

section Control

open OutputStream

variable {host : ByteOrder} {os : OutputStream} (hw : os.Wf)
  (hhost : os.doByteSwap = host.aceCdrByteOrder)

include hw hhost

theorem exists_writeValue {v : Value} (hv : Control v)
    (h : os.totalLength + (v.encode host).length + maxAlignment < expGrowthMax) :
    ∃ os', os.writeValue host v = some os' ∧ os.Wrote os' (v.encode host) := by
  cases v with
  | string s =>
    have hfits : StringFits s := by
      simp only [Value.encode, encodeString, length_append, length_wire,
        length_singleton, expGrowthMax] at h
      rw [StringFits]
      omega
    obtain ⟨os', hos'⟩ := exists_writeString hw hhost h
    exact ⟨os', hos', writeString_spec hw hhost hfits hos'⟩
  | int x =>
    obtain ⟨os', hos'⟩ := exists_writeN hw (host.image 4 x.toNat) (by
      simpa [Value.encode] using h)
    exact ⟨os', hos', writeValue_spec hw hhost (show Value.Fits (.int x) from trivial) hos'⟩
  | boolean x =>
    obtain ⟨os', hos'⟩ := exists_write1 hw (if x then 1 else 0) (by simpa [Value.encode] using h)
    exact ⟨os', hos', writeValue_spec hw hhost (show Value.Fits (.boolean x) from trivial) hos'⟩
  | _ => exact hv.elim

theorem exists_writeValues {vs : List Value} (hvs : ∀ v ∈ vs, Control v)
    (h : os.totalLength + (vs.flatMap (Value.encode host)).length + maxAlignment < expGrowthMax) :
    ∃ os', os.writeValues host vs = some os' ∧ os.Wrote os' (vs.flatMap (Value.encode host)) := by
  induction vs generalizing os with
  | nil => exact ⟨os, rfl, Wrote.refl hw⟩
  | cons v vs ih =>
    obtain ⟨hv, hvs⟩ := forall_mem_cons.mp hvs
    rw [flatMap_cons, length_append] at h
    obtain ⟨os₁, h₁, hwrote₁⟩ := exists_writeValue hw hhost hv (by omega)
    obtain ⟨os₂, h₂, hwrote₂⟩ := ih hwrote₁.wf (hwrote₁.swap_eq.trans hhost) hvs
      (by rw [hwrote₁.totalLength]; omega)
    exact ⟨os₂, bind_eq_some_iff.mpr ⟨os₁, h₁, h₂⟩, hwrote₁.trans hwrote₂⟩

end Control

theorem MsgProtocol.check_eq {host : ByteOrder} {type : UInt8} {os : OutputStream}
    {body : List UInt8} (h : Framed host type os body) (heap : ℕ → Chunk) (junk : ℕ) :
    check host heap junk os = checkString host heap junk os.bytes ∧
      os.bytes.getD messageTypeOffset 0 = type := by
  have hstr : toString os = .ok os.bytes :=
    appendBlocks_eq fun b hb => (h.filled b hb).ne'
  constructor
  · rw [check, hstr]
    rfl
  · rw [h.bytes, getD_append_right _ _ _ _ (by simp [messageTypeOffset])]
    simp [messageTypeOffset]

theorem MsgProtocol.check_ok {host : ByteOrder} {type : UInt8} {os : OutputStream}
    {body : List UInt8} (h : Framed host type os body) (htype : type ≠ event.toOctet)
    (heap : ℕ → Chunk) (junk : ℕ) : check host heap junk os = .ok () := by
  obtain ⟨hcheck, hget⟩ := check_eq h heap junk
  rw [hcheck, checkString, hget, if_pos htype]

def Event.block (e : Event) : MessageBlock := { e.msg.is.start with rdPtr := 0 }

def Partial (msg : Msg) : Prop :=
  headerLen ≤ msg.currentOffset → msg.currentOffset ≤ headerLen + msg.messageSize

namespace MsgProtocol

def Outcome : Step × Msg → Prop
  | (.headerOverrun, _) => False
  | (.half, msg) => Partial msg
  | (.whole, msg) => msg.messageSize < 2 ^ 31 →
      msg.currentOffset = OutputStream.toUInt (headerLen + msg.messageSize)
  | _ => True

theorem bytesToRead_le (msg : Msg) :
    bytesToRead msg ≤ (msg.messageSize - (msg.currentOffset - headerLen) : ℕ) := by
  rw [bytesToRead, BitVec.toInt_eq_toNat_cond, BitVec.toNat_ofNat]
  have := Nat.mod_le (msg.messageSize - (msg.currentOffset - headerLen)) (2 ^ 32)
  split_ifs <;> omega

variable {cap : ℕ} {msg : Msg}

theorem receiveBody_outcome (hheader : headerLen ≤ msg.currentOffset) (hmsg : Partial msg)
    (rs : ℕ → Recv) : Outcome (receiveBody (scripted cap) msg rs).1 := by
  have hle := hmsg hheader
  rw [receiveBody]
  split
  · exact trivial
  · exact trivial
  · next bs rs' hrecv =>
    have hlen := length_le_of_scripted hrecv
    split_ifs
    · exact trivial
    · next hmore =>
      have := bytesToRead_le msg
      have := Nat.mod_le (msg.currentOffset + bs.length) (2 ^ 32)
      intro _
      change (msg.currentOffset + bs.length) % 2 ^ 32 ≤ headerLen + msg.messageSize
      omega
    · next hmore =>
      intro hsize
      replace hsize : msg.messageSize < 2 ^ 31 := hsize
      rw [bytesToRead_of_lt hsize] at hlen hmore
      rw [sizeT_natCast (by omega)] at hlen
      change OutputStream.toUInt (msg.currentOffset + bs.length) = _
      congr 1
      change msg.currentOffset + bs.length = headerLen + msg.messageSize
      omega

section

variable (hmsg : Partial msg) (host : ByteOrder) (heap : ℕ → Chunk) (rs : ℕ → Recv)
include hmsg host heap rs

theorem receiveHeader_outcome : Outcome (receiveHeader host (scripted cap) heap msg rs).1 := by
  rw [receiveHeader]
  split_ifs with hheader
  · split
    · next bs rs' hrecv =>
      have hlen := length_le_of_scripted hrecv
      have hoffset : OutputStream.toUInt (msg.currentOffset + bs.length) =
          msg.currentOffset + bs.length :=
        OutputStream.toUInt_of_lt (by rw [headerLen] at *; omega)
      split_ifs with hnil
      · exact trivial
      · simp only [hoffset]
        split_ifs with hshort hover
        · exact fun hge => absurd hge (not_le.mpr hshort)
        · exact absurd hover (by omega)
        · refine receiveBody_outcome ?_ (fun _ => ?_) rs'
          · change headerLen ≤ msg.currentOffset + bs.length
            omega
          · change msg.currentOffset + bs.length ≤ _
            omega
    · exact trivial
  · exact receiveBody_outcome (not_lt.mp hheader) hmsg rs

theorem receive_outcome : Outcome (receive host (scripted cap) heap msg rs).1 := by
  refine receiveHeader_outcome ?_ host heap rs
  rw [makeRoom]
  split_ifs
  · exact hmsg
  · exact hmsg

end

end MsgProtocol

namespace Broker

variable {cfg : Config} {env : Answers}

def Delivers (cfg : Config) (env : Answers) (tmpMsg : Option Msg) (P : Msg → Prop) : Prop :=
  match (receive cfg.host (scripted intMax) env.heap (currentMsg cfg env tmpMsg)
    env.recvs).1 with
  | (.whole, msg) => msg.messageSize < 2 ^ 31 ∧ P (decode cfg.host env.junk msg)
  | (.blocked, msg) => P msg
  | _ => True

instance (cfg : Config) (env : Answers) (tmpMsg : Option Msg) (P : Msg → Prop) [DecidablePred P] :
    Decidable (Delivers cfg env tmpMsg P) := by
  unfold Delivers
  split <;> infer_instance

theorem parseInput_ok {tmpMsg : Option Msg} {P : Msg → Prop} (hmsg : ∀ m ∈ tmpMsg, Partial m)
    (h : Delivers cfg env tmpMsg P)
    (hP : ∀ m, P m → m.messageType = event.toOctet → m.topic ≠ []) :
    ∃ result msg, parseInput cfg env tmpMsg = .ok (result, msg) ∧
      (result = .half → Partial msg) ∧ (result = .complete → P msg) := by
  have hcurrent : Partial (currentMsg cfg env tmpMsg) := by
    cases tmpMsg with
    | none => exact fun hge => absurd hge (Nat.not_succ_le_zero _)
    | some m => exact hmsg m rfl
  have houtcome : MsgProtocol.Outcome (receive cfg.host (scripted intMax) env.heap
      (currentMsg cfg env tmpMsg) env.recvs).1 :=
    receive_outcome hcurrent cfg.host env.heap env.recvs
  rw [parseInput, parse]
  rw [Delivers] at h
  obtain ⟨⟨⟨step, msg⟩, rs'⟩, hreceive⟩ : ∃ r, receive cfg.host (scripted intMax)
      env.heap (currentMsg cfg env tmpMsg) env.recvs = r := ⟨_, rfl⟩
  rw [hreceive] at houtcome h ⊢
  cases step with
  | headerOverrun => exact houtcome.elim
  | error => exact ⟨.error, msg, rfl, by simp, by simp⟩
  | half => exact ⟨.half, msg, rfl, fun _ => houtcome, by simp⟩
  | blocked => exact ⟨.complete, msg, rfl, by simp, fun _ => h⟩
  | whole =>
    obtain ⟨hsize, hdecode⟩ := h
    refine ⟨.complete, decode cfg.host env.junk msg, ?_, by simp, fun _ => hdecode⟩
    simp only [require_bind, if_pos (houtcome hsize), if_pos (hP _ hdecode)]
    rfl


theorem reply_ok {type : MsgType} {fields : List Value} (htype : type ≠ .event)
    (hfields : ∀ v ∈ fields, Control v)
    (hlen : (fields.flatMap (Value.encode cfg.host)).length ≤ 65500) :
    ∃ r, reply cfg env type fields = .ok r := by
  obtain ⟨os₀, hstart, hframed⟩ := startFrame_framed cfg.host type.toOctet env.osHeap
  have hoctet : type.toOctet ≠ event.toOctet := by
    revert htype
    cases type <;> decide
  have hsmall : os₀.totalLength + (fields.flatMap (Value.encode cfg.host)).length + maxAlignment <
      expGrowthMax := by
    rw [hframed.totalLength, length_nil, headerLen, maxAlignment, expGrowthMax]
    omega
  obtain ⟨os, hwrite, hwrote⟩ := exists_writeValues hframed.wf hframed.swap hfields hsmall
  have hbuilt : (MsgProtocol.start cfg.host type (.create cfg.host env.osHeap)).bind
      (OutputStream.writeValues cfg.host fields) = some os :=
    bind_eq_some_iff.mpr ⟨os₀, hstart, hwrite⟩
  rw [reply, hbuilt]
  exact ⟨_, send_eq
    (check_ok (hframed.wrote hwrote) hoctet env.checkHeap env.junk) env.sends⟩

def MayTake (tm : TopicManager) (id subscriberId : ClientId) : Prop :=
  subscriberId ≠ [] ∧ (subscriberId = noId → tm.nextAllocateClientId < 10) ∧
    (id = takenId tm subscriberId ∨ id = noId ∧ tm.subscribers (takenId tm subscriberId) = none)

instance (tm : TopicManager) (id subscriberId : ClientId) :
    Decidable (MayTake tm id subscriberId) :=
  inferInstanceAs (Decidable (_ ∧ _ ∧ _))

def SubscriberMay (cfg : Config) (tm : TopicManager) (id : ClientId) (msg : Msg) : Prop :=
  (msg.messageType = MsgType.subscribe.toOctet ∧ msg.topic ≠ [] ∧
      msg.topic.length + msg.subscriberId.length ≤ 65000 ∧
      (cfg.enableBuffering = true → MayTake tm id msg.subscriberId)) ∨
    msg.messageType = MsgType.keepAliveProbe.toOctet ∨
    (msg.messageType = MsgType.unSubscribe.toOctet ∧ id = msg.subscriberId ∧
      msg.topic.length ≤ 65000)

instance (cfg : Config) (tm : TopicManager) (id : ClientId) :
    DecidablePred (SubscriberMay cfg tm id) :=
  fun _ => inferInstanceAs (Decidable (_ ∨ _ ∨ _))

def PublisherMay (msg : Msg) : Prop :=
  msg.messageType = keepAliveProbe.toOctet ∨
    msg.messageType = publish.toOctet ∨
    (msg.messageType = event.toOctet ∧ msg.topic ≠ [])

instance : DecidablePred PublisherMay := fun _ => inferInstanceAs (Decidable (_ ∨ _ ∨ _))

/-- The condition on an upcall. What a client sends is a message that it may send, and when a
message is sent to a subscriber of whose next message a part is there, the socket takes all of
it. -/
def Harmless (cfg : Config) (b : Broker) : Upcall → Prop
  | .subscriberReadable h env => ∀ sh ∈ b.subscriberHandlers h,
      Delivers cfg env sh.tmpMsg (SubscriberMay cfg b.manager sh.id)
  | .subscriberWritable h env => ∀ sh ∈ b.subscriberHandlers h, sh.writeMask = true →
      sh.tmpMsg = none ∨
        ∀ p ∈ offers ((pending cfg b h sh.id).map fun e => e.block.contents) env.sends,
          p.2.Covers p.1
  | .publisherReadable h env => ∀ ph ∈ b.publisherHandlers h,
      Delivers cfg env (ph.msg.map Prod.snd) PublisherMay
  | _ => True

instance (cfg : Config) (b : Broker) : DecidablePred (Harmless cfg b)
  | .acceptSubscriber _ _ | .acceptPublisher _ => .isTrue trivial
  | .subscriberReadable _ _ | .subscriberWritable _ _ | .publisherReadable _ _ =>
    inferInstanceAs (Decidable (∀ _ ∈ _, _))

def NoEmptyId (subscriptionMap : AList fun _ : Topic => List ClientId) : Prop :=
  ∀ topic, ∀ ids ∈ subscriptionMap.lookup topic, [] ∉ ids

structure SoundHandler (cfg : Config) (sh : SubscriberHandler) : Prop where
  id_ne_nil : sh.id ≠ []
  id_eq : cfg.enableBuffering = false → sh.id = noId
  id_ne : cfg.enableBuffering = true → sh.writeMask = true → sh.id ≠ noId
  receiving : ∀ msg ∈ sh.tmpMsg, Partial msg

/-- The invariant. -/
structure Sound (cfg : Config) (b : Broker) : Prop where
  subscriptionMap : NoEmptyId b.manager.subscriptionMap
  next_pos : cfg.enableBuffering = true → 0 < b.manager.nextAllocateClientId
  registered : ∀ id h, b.manager.subscribers id = some h ↔
    id ≠ noId ∧ (b.subscriberHandlers h).map SubscriberHandler.id = some id
  handler : ∀ h, ∀ sh ∈ b.subscriberHandlers h, SoundHandler cfg sh
  publishing : ∀ h, ∀ ph ∈ b.publisherHandlers h, ∀ msg ∈ ph.msg.map Prod.snd, Partial msg

namespace NoEmptyId

variable {subscriptionMap : AList fun _ : Topic => List ClientId}

theorem insert (hm : NoEmptyId subscriptionMap) (topic : Topic) {ids : List ClientId}
    (hids : [] ∉ ids) : NoEmptyId (subscriptionMap.insert topic ids) := by
  intro topic' ids' hids'
  by_cases htopic : topic' = topic
  · subst htopic
    rw [AList.lookup_insert, mem_some_iff] at hids'
    exact hids' ▸ hids
  · rw [AList.lookup_insert_ne htopic] at hids'
    exact hm topic' ids' hids'

theorem subscribersOf {tm : TopicManager} (hm : NoEmptyId tm.subscriptionMap) (topic : Topic) :
    [] ∉ tm.subscribersOf topic := by
  rw [TopicManager.subscribersOf]
  cases hids : tm.subscriptionMap.lookup topic with
  | none => exact not_mem_nil
  | some ids => exact hm topic ids hids

theorem saveSubscriptionInfoToDisk_ {tm : TopicManager} (hm : NoEmptyId tm.subscriptionMap) :
    NoEmptyId tm.saveSubscriptionInfoToDisk_.subscriptionMap := by
  intro topic ids hids
  obtain ⟨⟨topic', ids'⟩, hmem, heq⟩ := mem_map.mp (AList.mem_lookup_iff.mp hids)
  obtain ⟨rfl, hids'⟩ := Sigma.mk.inj heq
  obtain rfl := eq_of_heq hids'
  have hne : topic' ≠ [] := by
    rintro rfl
    have := AList.mem_lookup_iff.mpr hmem
    rw [AList.lookup_erase] at this
    cases this
  have hlookup := AList.mem_lookup_iff.mpr hmem
  rw [AList.lookup_erase_ne hne] at hlookup
  exact fun hnil => hm topic' ids' hlookup (mem_of_mem_erase hnil)

end NoEmptyId

namespace Sound

variable {b b' : Broker} {h : HandlerPtr} {sh sh' : SubscriberHandler}

theorem start {subscriptionMap : AList fun _ : Topic => List ClientId} {n : ℕ}
    (hm : NoEmptyId subscriptionMap) (hn : cfg.enableBuffering = true → 0 < n) :
    Sound cfg (Broker.start subscriptionMap n) where
  subscriptionMap := hm
  next_pos := hn
  registered := fun id h => by simp [Broker.start]
  handler := nofun
  publishing := nofun

theorem subscribers_eq (hI : Sound cfg b) (hsh : b.subscriberHandlers h = some sh)
    (hid : sh.id ≠ noId) : b.manager.subscribers sh.id = some h :=
  (hI.registered sh.id h).mpr ⟨hid, by rw [hsh]; rfl⟩

theorem congr (hI : Sound cfg b) (hsubscribers : b'.manager.subscribers = b.manager.subscribers)
    (hm : NoEmptyId b'.manager.subscriptionMap)
    (hnext : b.manager.nextAllocateClientId ≤ b'.manager.nextAllocateClientId)
    (hhandlers : b'.subscriberHandlers = b.subscriberHandlers)
    (hpublishers : b'.publisherHandlers = b.publisherHandlers) : Sound cfg b' where
  subscriptionMap := hm
  next_pos := fun hbuf => (hI.next_pos hbuf).trans_le hnext
  registered := by rw [hsubscribers, hhandlers]; exact hI.registered
  handler := by rw [hhandlers]; exact hI.handler
  publishing := by rw [hpublishers]; exact hI.publishing

theorem withPubs (hI : Sound cfg b) (pubs_ : PubMaps ClientId) (pubs : PubMaps HandlerPtr) :
    Sound cfg { b with manager := { b.manager with pubs_ := pubs_, pubs := pubs } } :=
  hI.congr rfl hI.subscriptionMap le_rfl rfl rfl

theorem handler_setSubscriber (hb : ∀ p, ∀ sh ∈ b.subscriberHandlers p, SoundHandler cfg sh)
    {r : Option SubscriberHandler} (hr : ∀ sh ∈ r, SoundHandler cfg sh) (p : HandlerPtr) :
    ∀ sh ∈ (b.setSubscriber h r).subscriberHandlers p, SoundHandler cfg sh := by
  by_cases hp : p = h
  · subst hp
    rw [setSubscriber_self]
    exact hr
  · rw [setSubscriber_of_ne b hp]
    exact hb p

section

variable (hI : Sound cfg b)
include hI

theorem setSubscriber (hsh : b.subscriberHandlers h = some sh)
    (hid : sh'.id = sh.id) (hsound : SoundHandler cfg sh') :
    Sound cfg (b.setSubscriber h (some sh')) where
  subscriptionMap := hI.subscriptionMap
  next_pos := hI.next_pos
  registered := by
    intro id p
    have hids : ((b.setSubscriber h (some sh')).subscriberHandlers p).map SubscriberHandler.id =
        (b.subscriberHandlers p).map SubscriberHandler.id := by
      by_cases hp : p = h
      · subst hp
        rw [setSubscriber_self, hsh, map_some, map_some, hid]
      · rw [setSubscriber_of_ne b hp]
    rw [hids]
    exact hI.registered id p
  handler := handler_setSubscriber hI.handler (by rintro _ ⟨⟩; exact hsound)
  publishing := hI.publishing

theorem setPublisher {r : Option PublisherHandler}
    (hr : ∀ ph ∈ r, ∀ msg ∈ ph.msg.map Prod.snd, Partial msg) : Sound cfg (b.setPublisher h r) where
  subscriptionMap := hI.subscriptionMap
  next_pos := hI.next_pos
  registered := hI.registered
  handler := hI.handler
  publishing := by
    intro p
    by_cases hp : p = h
    · subst hp
      rw [setPublisher_self]
      exact hr
    · rw [setPublisher_of_ne b hp]
      exact hI.publishing p

theorem registerWriteMask
    (hid : cfg.enableBuffering = true → ∀ sh ∈ b.subscriberHandlers h, sh.id ≠ noId) :
    Sound cfg (b.registerWriteMask h) := by
  rw [Broker.registerWriteMask]
  cases hsh : b.subscriberHandlers h with
  | none => exact hI
  | some sh =>
    have hsound := hI.handler h sh hsh
    exact hI.setSubscriber hsh rfl
      ⟨hsound.id_ne_nil, hsound.id_eq, fun hbuf _ => hid hbuf sh hsh, hsound.receiving⟩

theorem accept (hnone : b.subscriberHandlers h = none) (now : ℤ) :
    Sound cfg { b.setSubscriber h (some ⟨b.connections, noId, none, now, false⟩) with
      connections := b.connections + 1 } where
  subscriptionMap := hI.subscriptionMap
  next_pos := hI.next_pos
  registered := by
    change Registered b.manager.subscribers fun p =>
      (Function.update b.subscriberHandlers h _ p).map SubscriberHandler.id
    rw [Registry.map_update]
    exact Registered.accept hI.registered (congrArg (Option.map _) hnone)
  handler := handler_setSubscriber hI.handler (by
    rintro _ ⟨⟩
    exact ⟨noId_ne_nil, fun _ => rfl, nofun, nofun⟩)
  publishing := hI.publishing

end

theorem takeId {tm : TopicManager} {id : ClientId} (hI : Sound cfg b)
    (hsh : b.subscriberHandlers h = some sh) (hbuf : cfg.enableBuffering = true)
    (hne_nil : id ≠ []) (hne : id ≠ noId)
    (hid : sh.id = id ∨ sh.id = noId ∧ b.manager.subscribers id = none)
    (hsubscribers : tm.subscribers = Function.update b.manager.subscribers id (some h))
    (hm : NoEmptyId tm.subscriptionMap)
    (hnext : b.manager.nextAllocateClientId ≤ tm.nextAllocateClientId) :
    Sound cfg (({ b with manager := tm } : Broker).setSubscriber h
      (some { sh with id := id })) where
  subscriptionMap := hm
  next_pos := fun hbuf => (hI.next_pos hbuf).trans_le hnext
  registered := by
    change Registered tm.subscribers fun p =>
      (Function.update b.subscriberHandlers h _ p).map SubscriberHandler.id
    rw [Registry.map_update, hsubscribers]
    exact Registered.take hI.registered (congrArg (Option.map _) hsh) hne hid
  handler := by
    have hsound := hI.handler h sh hsh
    refine handler_setSubscriber hI.handler ?_
    rintro _ ⟨⟩
    exact ⟨hne_nil, by rw [hbuf]; exact nofun, fun _ _ => hne, hsound.receiving⟩
  publishing := hI.publishing

theorem destroySubscriber (hI : Sound cfg b) (hsh : b.subscriberHandlers h = some sh)
    (htmp : sh.tmpMsg = none) :
    ∃ b', Broker.destroySubscriber cfg b h sh = .ok b' ∧ Sound cfg b' := by
  have hsound := hI.handler h sh hsh
  have hnone : ∀ sh ∈ (none : Option SubscriberHandler), SoundHandler cfg sh := nofun
  rw [Broker.destroySubscriber, require_bind, htmp, if_pos isNone_none]
  refine ⟨_, rfl, ?_⟩
  by_cases hbuf : cfg.enableBuffering = true
  · rw [if_pos hbuf, if_pos hsound.id_ne_nil]
    refine ⟨hI.subscriptionMap, hI.next_pos, ?_, handler_setSubscriber hI.handler hnone,
      hI.publishing⟩
    change Registered (Function.update b.manager.subscribers sh.id none) fun p =>
      (Function.update b.subscriberHandlers h _ p).map SubscriberHandler.id
    rw [Registry.map_update]
    exact Registered.release hI.registered (congrArg (Option.map _) hsh)
  · obtain ⟨map₁, map₂, hdestroyed⟩ := b.manager.onHandlerDestroyed_eq h
    rw [if_neg hbuf, hdestroyed]
    refine ⟨hI.subscriptionMap, hI.next_pos, fun id p => ?_,
      handler_setSubscriber hI.handler hnone, hI.publishing⟩
    refine (hI.registered id p).trans ?_
    by_cases hp : p = h
    · -- without buffering nobody has an id
      subst hp
      rw [setSubscriber_self, hsh]
      refine ⟨fun hold => absurd ?_ hold.1, fun hnew => nomatch hnew.2⟩
      exact (some.inj hold.2).symm.trans (hsound.id_eq (Bool.eq_false_of_not_eq_true hbuf))
    · rw [setSubscriber_of_ne _ hp]

theorem closeSubscriber {ok : Bool} (hI : Sound cfg b)
    (htmp : ok = false → ∀ sh ∈ b.subscriberHandlers h, sh.tmpMsg = none) :
    ∃ b', Broker.closeSubscriber cfg h (ok, b) = .ok b' ∧ Sound cfg b' := by
  rw [Broker.closeSubscriber]
  cases ok with
  | true => exact ⟨b, rfl, hI⟩
  | false =>
    cases hsh : b.subscriberHandlers h with
    | none => exact ⟨b, rfl, hI⟩
    | some sh => exact hI.destroySubscriber hsh (htmp rfl sh hsh)

theorem closePublisher {ok : Bool} (hI : Sound cfg b)
    (hmsg : ok = false → ∀ ph ∈ b.publisherHandlers h, ph.msg = none) :
    ∃ b', Broker.closePublisher h (ok, b) = .ok b' ∧ Sound cfg b' := by
  rw [Broker.closePublisher]
  cases ok with
  | true => exact ⟨b, rfl, hI⟩
  | false =>
    cases hph : b.publisherHandlers h with
    | none => exact ⟨b, rfl, hI⟩
    | some ph =>
      refine ⟨b.setPublisher h none, ?_, hI.setPublisher (by simp)⟩
      change Broker.destroyPublisher b h ph = _
      rw [Broker.destroyPublisher, require_bind, hmsg rfl ph hph, if_pos isNone_none]
      rfl

end Sound

section Readable

variable {b : Broker} {h : HandlerPtr} {sh : SubscriberHandler} {msg : Msg}

theorem takenId_spec {tm : TopicManager} {id subscriberId : ClientId}
    (hid : MayTake tm id subscriberId) (hnext : 0 < tm.nextAllocateClientId) :
    takenId tm subscriberId ≠ [] ∧ takenId tm subscriberId ≠ noId ∧
      (takenId tm subscriberId).length ≤ subscriberId.length := by
  obtain ⟨hne_nil, hten, -⟩ := hid
  have hdigit : ∀ n < 10, 0 < n → decimal n ≠ [] ∧ decimal n ≠ noId ∧ (decimal n).length = 1 := by
    decide
  rw [takenId]
  split_ifs with hno
  · obtain ⟨h₁, h₂, h₃⟩ := hdigit _ (hten hno) hnext
    rw [hno]
    exact ⟨h₁, h₂, h₃.le⟩
  · exact ⟨hne_nil, hno, le_rfl⟩

theorem chooseId_ok {tm : TopicManager} {id subscriberId : ClientId}
    (hid : MayTake tm id subscriberId) : ∃ n, tm.nextAllocateClientId ≤ n ∧
      chooseId tm subscriberId =
        .ok (takenId tm subscriberId, { tm with nextAllocateClientId := n }) := by
  obtain ⟨hne_nil, hten, -⟩ := hid
  have hdigit : ∀ n < 10, (decimal n).length = 1 := by decide
  rw [chooseId, require_bind, if_pos hne_nil, takenId]
  split_ifs with hno
  · refine ⟨_, Nat.le_succ _, ?_⟩
    change (require Assertion.allocatedId ((decimal tm.nextAllocateClientId).length = 1) >>=
      fun _ => _) = _
    rw [require_bind, if_pos (hdigit _ (hten hno))]
    rfl
  · exact ⟨_, le_rfl, rfl⟩

theorem subscribe_ok (hI : Sound cfg b) (hsh : b.subscriberHandlers h = some sh)
    (htopic : msg.topic ≠ [])
    (hid : cfg.enableBuffering = true → MayTake b.manager sh.id msg.subscriberId) :
    ∃ id tm, subscribe cfg b.manager h sh msg = .ok (id, tm) ∧
      id.length ≤ max 1 msg.subscriberId.length ∧
      (cfg.enableBuffering = true → id ≠ noId) ∧
      Sound cfg (({ b with manager := tm } : Broker).setSubscriber h
        (some { sh with id := id })) := by
  have hsound := hI.handler h sh hsh
  rw [subscribe]
  split_ifs with hbuf
  · have hmay := hid hbuf
    obtain ⟨n, hn, hchoose⟩ := chooseId_ok hmay
    obtain ⟨hne_nil, hne, hlen⟩ := takenId_spec hmay (hI.next_pos hbuf)
    rw [hchoose]
    refine ⟨takenId b.manager msg.subscriberId, saveSubscriptionInfoToDisk_
      { b.manager with
        nextAllocateClientId := n
        subscribers := Function.update b.manager.subscribers (takenId b.manager msg.subscriberId)
          (some h)
        subscriptionMap := b.manager.subscriptionMap.insert msg.topic
          ((b.manager.subscribersOf msg.topic).insert (takenId b.manager msg.subscriberId)) },
      ?_, hlen.trans (le_max_right ..), fun _ => hne,
      hI.takeId hsh hbuf hne_nil hne hmay.2.2 rfl (NoEmptyId.saveSubscriptionInfoToDisk_ ?_) hn⟩
    · change (addSubscription_ _ msg.topic _ h >>= _) = _
      rw [addSubscription_, require_bind, if_pos htopic, require_bind,
        if_pos hne_nil]
      rfl
    · refine hI.subscriptionMap.insert _ fun hnil => ?_
      rcases mem_insert_iff.mp hnil with hnil | hnil
      · exact hne_nil hnil.symm
      · exact hI.subscriptionMap.subscribersOf _ hnil
  · have hno := hsound.id_eq (Bool.eq_false_of_not_eq_true hbuf)
    rw [addSubscription, require_bind, if_pos htopic]
    refine ⟨sh.id, _, rfl, by rw [hno]; exact le_max_left .., fun h => absurd h hbuf, ?_⟩
    exact Sound.setSubscriber (hI.congr rfl hI.subscriptionMap le_rfl rfl rfl) hsh rfl hsound

def Idle (b : Broker) (h : HandlerPtr) : Prop := ∀ sh ∈ b.subscriberHandlers h, sh.tmpMsg = none

theorem idle_registerWriteMask (hb : Idle b h) : Idle (b.registerWriteMask h) h := by
  rw [registerWriteMask]
  cases hsh : b.subscriberHandlers h with
  | none => exact hb
  | some sh =>
    rw [Idle, setSubscriber_self]
    rintro _ ⟨⟩
    exact hb sh hsh

section

variable (hI : Sound cfg b) (hsh : b.subscriberHandlers h = some sh) (htmp : sh.tmpMsg = none)
include hI hsh htmp

theorem onSubscribe_ok (htopic : msg.topic ≠ [])
    (hlen : msg.topic.length + msg.subscriberId.length ≤ 65000)
    (hid : cfg.enableBuffering = true → MayTake b.manager sh.id msg.subscriberId) :
    ∃ ok b', onSubscribe cfg env b h sh msg = .ok (ok, b') ∧ Sound cfg b' ∧ Idle b' h := by
  obtain ⟨id, tm, hsubscribe, hidlen, hidne, hI'⟩ := subscribe_ok hI hsh htopic hid
  obtain ⟨⟨ok, bytes⟩, hreply⟩ : ∃ r, reply cfg env .subscribeOK [.string msg.topic, .string id,
      .int cfg.keepAliveTryTimes, .int cfg.keepAliveTimeSpan] = .ok r := by
    refine reply_ok nofun (by simp [Control]) ?_
    simp [Value.encode, encodeString]
    omega
  have hidle : Idle (({ b with manager := tm } : Broker).setSubscriber h
      (some { sh with id := id })) h := by
    rw [Idle, setSubscriber_self]
    rintro _ ⟨⟩
    exact htmp
  refine ⟨ok, _, bind_eq_ok.mpr ⟨_, hsubscribe, bind_eq_ok.mpr ⟨_, hreply, rfl⟩⟩, ?_, ?_⟩
  · split_ifs
    · refine hI'.registerWriteMask fun hbuf => ?_
      rw [setSubscriber_self]
      rintro _ ⟨⟩
      exact hidne hbuf
    · exact hI'
  · split_ifs
    · exact idle_registerWriteMask hidle
    · exact hidle

theorem onUnSubscribe_ok (hid : sh.id = msg.subscriberId)
    (hlen : msg.topic.length ≤ 65000) :
    ∃ ok b', onUnSubscribe cfg env b h sh msg = .ok (ok, b') ∧ Sound cfg b' ∧ Idle b' h := by
  obtain ⟨⟨ok, bytes⟩, hreply⟩ :
      ∃ r, reply cfg env .unSubscribeOK [.string msg.topic] = .ok r := by
    refine reply_ok nofun (by simp [Control]) ?_
    simp [Value.encode, encodeString]
    omega
  refine ⟨ok, _, bind_eq_ok.mpr ⟨(), require_eq_ok.mpr hid, bind_eq_ok.mpr ⟨_, hreply, rfl⟩⟩,
    ?_, ?_⟩
  · have hm : NoEmptyId (unSubscribe cfg b.manager h sh msg).subscriptionMap := by
      rw [unSubscribe]
      split_ifs
      · refine NoEmptyId.saveSubscriptionInfoToDisk_ (hI.subscriptionMap.insert _ fun hnil => ?_)
        exact hI.subscriptionMap.subscribersOf _ (mem_of_mem_erase hnil)
      · exact hI.subscriptionMap
    refine hI.congr ?_ hm ?_ rfl rfl
    · change (unSubscribe cfg b.manager h sh msg).subscribers = _
      rw [unSubscribe]
      split_ifs <;> rfl
    · change _ ≤ (unSubscribe cfg b.manager h sh msg).nextAllocateClientId
      rw [unSubscribe]
      split_ifs <;> exact le_rfl
  · intro sh' hsh'
    obtain rfl := some.inj (hsh.symm.trans hsh')
    exact htmp

end

theorem onKeepAliveProbe_ok (cfg : Config) (env : Answers) (b : Broker) :
    ∃ ok, onKeepAliveProbe cfg env b = .ok (ok, b) := by
  obtain ⟨⟨ok, bytes⟩, hreply⟩ :
      ∃ r, reply cfg env .keepAliveACK [.string (ascii "keepAlive")] = .ok r := by
    refine reply_ok nofun (by simp [Control]) ?_
    have : (ascii "keepAlive").length = 9 := by decide
    simp [Value.encode, encodeString, this]
  exact ⟨ok, bind_eq_ok.mpr ⟨_, hreply, rfl⟩⟩

section

variable (hI : Sound cfg b) (hsh : b.subscriberHandlers h = some sh)
include hI hsh

theorem onSubscriberMessage_ok
    (htmp : sh.tmpMsg = none) (hmsg : SubscriberMay cfg b.manager sh.id msg) :
    ∃ ok b', onSubscriberMessage cfg env b h sh msg = .ok (ok, b') ∧ Sound cfg b' ∧ Idle b' h := by
  rw [onSubscriberMessage]
  rcases hmsg with ⟨htype, htopic, hlen, hid⟩ | htype | ⟨htype, hid, hlen⟩
  · rw [if_pos htype]
    exact onSubscribe_ok hI hsh htmp htopic hlen hid
  · rw [htype, if_neg (by decide), if_pos rfl]
    obtain ⟨ok, hok⟩ := onKeepAliveProbe_ok cfg env b
    refine ⟨ok, b, hok, hI, fun sh' hsh' => ?_⟩
    obtain rfl := some.inj (hsh.symm.trans hsh')
    exact htmp
  · rw [htype, if_neg (by decide), if_neg (by decide), if_pos rfl]
    exact onUnSubscribe_ok hI hsh htmp hid hlen

theorem subscriberInput_ok (hu : Delivers cfg env sh.tmpMsg (SubscriberMay cfg b.manager sh.id)) :
    ∃ ok b', subscriberInput cfg env b h sh = .ok (ok, b') ∧ Sound cfg b' ∧
      (ok = false → Idle b' h) := by
  have hsound := hI.handler h sh hsh
  have hevent : ∀ m, SubscriberMay cfg b.manager sh.id m →
      m.messageType = event.toOctet → m.topic ≠ [] := by
    rintro m (⟨htype, -⟩ | htype | ⟨htype, -⟩) htype'
    · exact absurd (htype.symm.trans htype') (by decide)
    · exact absurd (htype.symm.trans htype') (by decide)
    · exact absurd (htype.symm.trans htype') (by decide)
  obtain ⟨result, msg, hparse, hhalf, hcomplete⟩ := parseInput_ok hsound.receiving hu hevent
  have hset (tmpMsg : Option Msg) (ht : ∀ m ∈ tmpMsg, Partial m) :
      Sound cfg (b.setSubscriber h (some { sh with
        recentActiveTime := env.now, tmpMsg := tmpMsg })) :=
    hI.setSubscriber hsh rfl ⟨hsound.id_ne_nil, hsound.id_eq, hsound.id_ne, ht⟩
  rw [subscriberInput, hparse]
  cases result with
  | error =>
    refine ⟨false, _, rfl, hset none nofun, fun _ => ?_⟩
    rw [Idle, setSubscriber_self]
    rintro _ ⟨⟩
    rfl
  | half =>
    refine ⟨true, _, rfl, hset (some msg) ?_, nofun⟩
    rintro _ ⟨⟩
    exact hhalf rfl
  | complete =>
    obtain ⟨ok, b', hrun, hI', hidle⟩ := onSubscriberMessage_ok (hset none nofun)
      (setSubscriber_self ..) rfl (hcomplete rfl)
    exact ⟨ok, b', hrun, hI', fun _ => hidle⟩

end

end Readable

section Writable

variable {b : Broker} {h : HandlerPtr} {sh : SubscriberHandler}

theorem checkHandler_ok (hI : Sound cfg b) (hsh : b.subscriberHandlers h = some sh)
    (hid : cfg.enableBuffering = true → sh.id ≠ noId) :
    checkHandler cfg b.manager h sh = .ok () := by
  have hne := (hI.handler h sh hsh).id_ne_nil
  rw [checkHandler, require_bind, if_pos hne]
  split_ifs with hbuf
  · rw [getHandlerOfClient_, require_bind, if_pos hne]
    exact require_eq_ok.mpr (hI.subscribers_eq hsh (hid hbuf))
  · rfl

theorem sendMessage_ok (env : Answers) (hI : Sound cfg b)
    (hsh : b.subscriberHandlers h = some sh) (hid : cfg.enableBuffering = true → sh.id ≠ noId)
    (e : Event) (r : SendResult) :
    ∃ ok sent, sendMessage cfg env b h sh e r = .ok (ok, { b with sent := sent }) ∧
      (r.Covers e.block.contents → ok = true) := by
  simp only [sendMessage]
  split_ifs
  · rw [checkHandler_ok hI hsh hid]
    cases r with
    | failed => exact ⟨false, b.sent, rfl, False.elim⟩
    | accepted room =>
      refine ⟨_, _, rfl, fun hcover => decide_eq_true ?_⟩
      rw [← MessageBlock.length_contents]
      exact hcover
  · exact ⟨true, b.sent, rfl, fun _ => rfl⟩

theorem sendMessages_ok (env : Answers) (hI : Sound cfg b)
    (hsh : b.subscriberHandlers h = some sh) (hid : cfg.enableBuffering = true → sh.id ≠ noId)
    (es : List Event) (rs : ℕ → SendResult) :
    ∃ ok b', sendMessages cfg env h sh es rs b = .ok (ok, b') ∧ Sound cfg b' ∧
      b'.subscriberHandlers h = some sh ∧
      ((∀ p ∈ offers (es.map fun e => e.block.contents) rs, p.2.Covers p.1) → ok = true) := by
  induction es generalizing rs b with
  | nil => exact ⟨true, b, rfl, hI, hsh, fun _ => rfl⟩
  | cons e es ih =>
    obtain ⟨ok, sent, hsend, hcover⟩ := sendMessage_ok env hI hsh hid e (rs 0)
    cases ok with
    | false =>
      refine ⟨false, _, bind_eq_ok.mpr ⟨_, hsend, rfl⟩,
        hI.congr rfl hI.subscriptionMap le_rfl rfl rfl, hsh, fun hall => ?_⟩
      exact hcover (hall _ mem_cons_self)
    | true =>
      have hI' : Sound cfg (onMessageSent cfg { b with sent := sent } h sh e) := by
        rw [onMessageSent]
        split_ifs <;> exact hI.congr rfl hI.subscriptionMap le_rfl rfl rfl
      obtain ⟨ok', b', hrest, hI'', hsh', hcover'⟩ := ih hI' hsh fun i => rs (i + 1)
      refine ⟨ok', b', bind_eq_ok.mpr ⟨_, hsend, hrest⟩, hI'', hsh', fun hall => ?_⟩
      exact hcover' fun p hp => hall p (mem_cons_of_mem _ hp)

theorem subscriberOutput_ok (hI : Sound cfg b) (hsh : b.subscriberHandlers h = some sh)
    (hmask : sh.writeMask = true)
    (hu : sh.tmpMsg = none ∨ ∀ p ∈ offers ((pending cfg b h sh.id).map fun e => e.block.contents)
      env.sends, p.2.Covers p.1) :
    ∃ ok b', subscriberOutput cfg env b h sh = .ok (ok, b') ∧ Sound cfg b' ∧
      (ok = false → Idle b' h) := by
  have hsound := hI.handler h sh hsh
  have hid (hbuf : cfg.enableBuffering = true) : sh.id ≠ noId := hsound.id_ne hbuf hmask
  have hmessages : messagesOf cfg b.manager h sh = .ok (pending cfg b h sh.id) := by
    rw [messagesOf, pending]
    split_ifs
    · rw [getClientMessages_, require_bind, if_pos hsound.id_ne_nil]
      rfl
    · rfl
  obtain ⟨ok, b', hsend, hI', hsh', hcover⟩ := sendMessages_ok env hI hsh hid
    (pending cfg b h sh.id) env.sends
  refine ⟨ok, _, bind_eq_ok.mpr ⟨_, hmessages, bind_eq_ok.mpr ⟨_, hsend, rfl⟩⟩,
    hI'.setSubscriber hsh' rfl ⟨hsound.id_ne_nil, hsound.id_eq, fun hbuf _ => hid hbuf,
      hsound.receiving⟩, fun hfalse => ?_⟩
  rw [Idle, setSubscriber_self]
  rintro _ ⟨⟩
  refine hu.resolve_right fun hall => ?_
  rw [hcover hall] at hfalse
  cases hfalse

end Writable

section Publish

variable {b : Broker} {h : HandlerPtr} {ph : PublisherHandler} {ptr : MsgPtr} {msg : Msg}

theorem registerWriteMask_publisherHandlers (b : Broker) (h : HandlerPtr) :
    (b.registerWriteMask h).publisherHandlers = b.publisherHandlers := by
  rw [registerWriteMask]
  cases b.subscriberHandlers h <;> rfl

theorem Sound.addMessageTo_ (hI : Sound cfg b) (e : Event) {ids : List ClientId}
    (hids : [] ∉ ids) : ∃ b', Broker.addMessageTo_ e ids b = .ok b' ∧ Sound cfg b' ∧
      b'.publisherHandlers = b.publisherHandlers := by
  induction ids generalizing b with
  | nil => exact ⟨b, rfl, hI, rfl⟩
  | cons id ids ih =>
    rw [mem_cons, not_or] at hids
    have hmask : Sound cfg (((b.manager.subscribers id).map b.registerWriteMask).getD b) ∧
        (((b.manager.subscribers id).map b.registerWriteMask).getD b).publisherHandlers =
          b.publisherHandlers := by
      cases hid : b.manager.subscribers id with
      | none => exact ⟨hI, rfl⟩
      | some h =>
        refine ⟨hI.registerWriteMask fun _ sh hsh => ?_, registerWriteMask_publisherHandlers b h⟩
        obtain ⟨hne, heq⟩ := (hI.registered id h).mp hid
        rw [hsh, map_some, some.injEq] at heq
        rwa [heq]
    obtain ⟨b', hrun, hI', hpublishers⟩ := ih (hmask.1.withPubs (PubMaps.insert _ e id) _) hids.2
    exact ⟨b', bind_eq_ok.mpr ⟨(), require_eq_ok.mpr (Ne.symm hids.1), hrun⟩, hI',
      hpublishers.trans hmask.2⟩

theorem Sound.addMessageTo (hI : Sound cfg b) (hbuf : cfg.enableBuffering = false) (now : ℤ)
    (e : Event) (hs : List HandlerPtr) : Sound cfg (Broker.addMessageTo cfg now e hs b) ∧
      (Broker.addMessageTo cfg now e hs b).publisherHandlers = b.publisherHandlers := by
  refine addMessageTo.invariant (I := fun b' => Sound cfg b' ∧
    b'.publisherHandlers = b.publisherHandlers) ?_ ?_ cfg now hs ⟨hI, rfl⟩
  · rintro b₁ h ⟨hI₁, hsame⟩
    exact ⟨hI₁.registerWriteMask (by rw [hbuf]; exact nofun),
      (registerWriteMask_publisherHandlers b₁ h).trans hsame⟩
  · rintro b₁ h ⟨hI₁, hsame⟩
    exact ⟨hI₁.withPubs _ (PubMaps.insert _ e h), hsame⟩

theorem onPublisherMessage_ok (env : Answers) (hI : Sound cfg b) (hmsg : PublisherMay msg)
    (ptr : MsgPtr) : ∃ ok b', onPublisherMessage cfg env b ptr msg = .ok (ok, b') ∧
      Sound cfg b' ∧ b'.publisherHandlers = b.publisherHandlers := by
  rw [onPublisherMessage]
  rcases hmsg with htype | htype | ⟨htype, htopic⟩
  · rw [htype, if_pos rfl]
    obtain ⟨ok, hok⟩ := onKeepAliveProbe_ok cfg env b
    exact ⟨ok, b, hok, hI, rfl⟩
  · rw [htype, if_neg (by decide), if_pos rfl]
    obtain ⟨⟨ok, bytes⟩, hreply⟩ : ∃ r, reply cfg env .publishOK [.string (ascii "publishOK"),
        .int cfg.keepAliveTryTimes, .int cfg.keepAliveTimeSpan,
        .boolean cfg.enableBuffering] = .ok r := by
      refine reply_ok (by simp) (by simp [Control]) ?_
      have : (ascii "publishOK").length = 9 := by decide
      simp [Value.encode, encodeString, this]
    exact ⟨ok, b, bind_eq_ok.mpr ⟨_, hreply, rfl⟩, hI, rfl⟩
  · rw [if_neg (by rw [htype]; decide), if_neg (by rw [htype]; decide), require_bind,
      if_pos htype, require_bind, if_pos htopic]
    split_ifs with hbuf
    · have hids := hI.subscriptionMap.subscribersOf msg.topic
      obtain ⟨b', hrun, hI', hpublishers⟩ := Sound.addMessageTo_
        (b := { b with
          manager := { b.manager with
            pubs_ := b.manager.pubs_.checkBufferSize
            subscriptionMap := b.manager.subscriptionMap.insert msg.topic
              (b.manager.subscribersOf msg.topic) }
          received := b.received + 1 })
        (hI.congr rfl (hI.subscriptionMap.insert _ hids) le_rfl rfl rfl)
        ⟨ptr, msg, b.received⟩ hids
      exact ⟨true, b', bind_eq_ok.mpr ⟨b', hrun, rfl⟩, hI', hpublishers⟩
    · obtain ⟨hI', hpublishers⟩ := Sound.addMessageTo
        (b := { b with
          manager := { b.manager with pubs := b.manager.pubs.checkBufferSize }
          received := b.received + 1 })
        (hI.congr rfl hI.subscriptionMap le_rfl rfl rfl) (Bool.eq_false_of_not_eq_true hbuf)
        env.now ⟨ptr, msg, b.received⟩ (b.manager.subscriptionMap1 msg.topic)
      exact ⟨true, _, rfl, hI', hpublishers⟩

theorem publisherInput_ok (hI : Sound cfg b) (hph : b.publisherHandlers h = some ph)
    (hu : Delivers cfg env (ph.msg.map Prod.snd) PublisherMay) :
    ∃ ok b', publisherInput cfg env b h ph = .ok (ok, b') ∧ Sound cfg b' ∧
      (ok = false → ∀ ph ∈ b'.publisherHandlers h, ph.msg = none) := by
  have hevent : ∀ m, PublisherMay m → m.messageType = event.toOctet → m.topic ≠ [] := by
    rintro m (htype | htype | ⟨-, htopic⟩) htype'
    · exact absurd (htype.symm.trans htype') (by decide)
    · exact absurd (htype.symm.trans htype') (by decide)
    · exact htopic
  obtain ⟨result, msg, hparse, hhalf, hcomplete⟩ :=
    parseInput_ok (hI.publishing h ph hph) hu hevent
  have hnone : Sound cfg (b.setPublisher h (some ⟨none⟩)) :=
    hI.setPublisher (by rintro _ ⟨⟩; simp)
  have hidle {b' : Broker} (hb' : b'.publisherHandlers h = some ⟨none⟩) :
      ∀ ph ∈ b'.publisherHandlers h, ph.msg = none := by
    rw [hb']
    rintro _ ⟨⟩
    rfl
  rw [publisherInput, hparse]
  cases result with
  | error => exact ⟨false, _, rfl, hnone, fun _ => hidle (setPublisher_self ..)⟩
  | half =>
    refine ⟨true, _, rfl, hI.setPublisher ?_, nofun⟩
    rintro _ ⟨⟩ _ ⟨⟩
    exact hhalf rfl
  | complete =>
    obtain ⟨ok, b', hrun, hI', hpublishers⟩ :=
      onPublisherMessage_ok env hnone (hcomplete rfl) (currentPtr env ph)
    refine ⟨ok, b', hrun, hI', fun _ => hidle ?_⟩
    rw [hpublishers, setPublisher_self]

end Publish

theorem Sound.step {b : Broker} {u : Upcall} (hI : Sound cfg b) (hu : Harmless cfg b u) :
    ∃ b', Broker.step cfg b u = .ok b' ∧ Sound cfg b' := by
  cases u with
  | acceptSubscriber h env =>
    rw [Broker.step]
    split_ifs with hfree
    · exact ⟨_, rfl, hI.accept (isNone_iff_eq_none.mp hfree.1) env.now⟩
    · exact ⟨b, rfl, hI⟩
  | acceptPublisher h =>
    rw [Broker.step]
    split_ifs
    · exact ⟨_, rfl, hI.setPublisher (by rintro _ ⟨⟩; simp)⟩
    · exact ⟨b, rfl, hI⟩
  | subscriberReadable h env =>
    rw [Broker.step]
    cases hsh : b.subscriberHandlers h with
    | none => exact ⟨b, rfl, hI⟩
    | some sh =>
      obtain ⟨ok, b₁, hinput, hI₁, hidle⟩ := subscriberInput_ok hI hsh (hu sh hsh)
      obtain ⟨b', hclose, hI'⟩ := hI₁.closeSubscriber hidle
      exact ⟨b', bind_eq_ok.mpr ⟨_, hinput, hclose⟩, hI'⟩
  | subscriberWritable h env =>
    rw [Broker.step]
    cases hsh : b.subscriberHandlers h with
    | none => exact ⟨b, rfl, hI⟩
    | some sh =>
      by_cases hmask : sh.writeMask = true
      · obtain ⟨ok, b₁, houtput, hI₁, hidle⟩ := subscriberOutput_ok hI hsh hmask (hu sh hsh hmask)
        obtain ⟨b', hclose, hI'⟩ := hI₁.closeSubscriber hidle
        refine ⟨b', ?_, hI'⟩
        simp only [hmask, ↓reduceIte]
        exact bind_eq_ok.mpr ⟨_, houtput, hclose⟩
      · simp only [hmask, Bool.false_eq_true, ↓reduceIte]
        exact ⟨b, rfl, hI⟩
  | publisherReadable h env =>
    rw [Broker.step]
    cases hph : b.publisherHandlers h with
    | none => exact ⟨b, rfl, hI⟩
    | some ph =>
      obtain ⟨ok, b₁, hinput, hI₁, hidle⟩ := publisherInput_ok hI hph (hu ph hph)
      obtain ⟨b', hclose, hI'⟩ := hI₁.closePublisher hidle
      exact ⟨b', bind_eq_ok.mpr ⟨_, hinput, hclose⟩, hI'⟩

/-- **No assertion fails in a run of harmless upcalls.** -/
theorem run_ok (cfg : Config) (subscriptionMap : AList fun _ : Topic => List ClientId)
    (nextAllocateClientId : ℕ) (us : List Upcall) (hmap : NoEmptyId subscriptionMap)
    (hnext : cfg.enableBuffering = true → 0 < nextAllocateClientId)
    (hharmless : EachStep (step cfg) (Harmless cfg) (start subscriptionMap nextAllocateClientId)
      us) :
    ∃ b, runSteps (step cfg) (start subscriptionMap nextAllocateClientId) us = .ok b := by
  obtain ⟨b, hrun, -⟩ := exists_runSteps (fun _ _ hI hu => Sound.step hI hu)
    (Sound.start hmap hnext) hharmless
  exact ⟨b, hrun⟩

theorem run_ok_one :
    ∃ b, runSteps (step { plainConfig with enableBuffering := true }) (start ∅ 1)
      (subscribed ++ [eventAt 100, writable]) = .ok b :=
  run_ok _ ∅ 1 _ (fun _ => by simp) (by decide) (by decide +kernel)

theorem hostile_message_stops :
    ([(.subscribe, encodeString [] ++ encodeString (ascii "0")),
        (.unSubscribe, encodeString (ascii "t") ++ encodeString (ascii "7")),
        (.publish, [0]), (.event, encodeString [])].map fun m : MsgType × List UInt8 =>
      (runSteps (step plainConfig) (start ∅ 1)
        [.acceptSubscriber 1 (frameAnswers 0 .subscribe []),
          .subscriberReadable 1 (frameAnswers 0 m.1 m.2)]).map fun _ => ()) =
      [.error .subscriptionTopic, .error .sameId, .error .subscriberType, .error .eventTopic] := by
  decide +kernel

end Broker

end Icm.Messaging
