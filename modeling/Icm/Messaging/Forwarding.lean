import Icm.Messaging.Safety
import Icm.Messaging.Steps

/-!
# The bytes of an event that are sent on

The broker receives an event from a publisher into the buffer of a message, in as many calls as the
socket needs, reads its topic from there, and later offers the buffer from its base to the sockets
of the subscribers.
-/

namespace Icm.Messaging

open Icm.Lib Icm.Stream List Broker InputStream OutputStream

structure Opened (msg : Msg) (got : List UInt8) : Prop where
  rdPtr : msg.is.rdPtr = headerLen
  wrPtr : msg.is.start.wrPtr = toUInt (headerLen + msg.messageSize)
  header : got.take headerLen = wire 4 msg.messageSize ++ [msg.messageType]
  size_lt : msg.messageSize < 2 ^ 32
  length_le : got.length ≤ headerLen + msg.messageSize
  -- a body whose length is negative as an `int` is never taken in parts
  small : msg.messageSize < 2 ^ 31 ∨ got.length = headerLen

structure Holds (host : ByteOrder) (msg : Msg) (got : List UInt8) : Prop where
  offset : msg.currentOffset = got.length
  bytes : msg.is.start.bytesAt 0 got.length = got
  room : headerLen ≤ msg.is.start.size
  swap : msg.is.doByteSwap = host.aceCdrByteOrder
  topic : msg.topic = []

structure Receiving (host : ByteOrder) (msg : Msg) (got : List UInt8) : Prop
    extends Holds host msg got where
  header : got.length < headerLen → msg.is.rdPtr = 0
  body : headerLen ≤ got.length → Opened msg got

namespace MsgProtocol

variable {host : ByteOrder} {msg : Msg} {got : List UInt8} {rs : ℕ → Recv}

def Arrived (host : ByteOrder) (got : List UInt8) : Step × Msg → Prop
  | (.half, msg) => Receiving host msg got
  | (.blocked, msg) => msg.topic = []
  | (.whole, msg) => msg.currentOffset = toUInt (headerLen + msg.messageSize) →
      msg.forwarded = got ∧ ∃ body, got = frame msg.messageType body
  | _ => True

theorem logged_scripted_cases (n : ℕ) (rs : ℕ → Recv) (got : List UInt8) :
    (∃ bs, logged (scripted intMax) n (rs, got) = (.bytes bs, (fun i => rs (i + 1), got ++ bs)) ∧
      bs.length ≤ n ∧ bs.length ≤ intMax) ∨
    logged (scripted intMax) n (rs, got) = (.wouldBlock, (fun i => rs (i + 1), got)) ∨
    logged (scripted intMax) n (rs, got) = (.error, (fun i => rs (i + 1), got)) := by
  simp only [logged, scripted]
  cases rs 0 with
  | bytes as =>
    refine Or.inl ⟨as.take (min n intMax), rfl, ?_, ?_⟩
    · exact (length_take_le _ _).trans (Nat.min_le_left ..)
    · exact (length_take_le _ _).trans (Nat.min_le_right ..)
  | wouldBlock => exact Or.inr (Or.inl rfl)
  | error => exact Or.inr (Or.inr rfl)

theorem receive_more_body (hm : Receiving host msg got) (hheader : headerLen ≤ got.length)
    {bs : List UInt8} (hasked : bs.length ≤ sizeT (bytesToRead msg)) (hmax : bs.length ≤ intMax) :
    toUInt (msg.currentOffset + bs.length) = (got ++ bs).length ∧
      (msg.is.fill (msg.is.rdPtr + (msg.currentOffset - headerLen)) bs).start.bytesAt 0
        (got ++ bs).length = got ++ bs ∧
      (msg.messageSize < 2 ^ 31 → (got ++ bs).length ≤ headerLen + msg.messageSize) := by
  have ho := hm.body hheader
  have hgot := ho.length_le
  have hlen : headerLen = 5 := rfl
  have hint : intMax = 2 ^ 31 - 1 := rfl
  have hle (hsmall : msg.messageSize < 2 ^ 31) :
      got.length + bs.length ≤ headerLen + msg.messageSize := by
    rw [bytesToRead_of_lt hsmall, hm.offset, sizeT_natCast (by omega)] at hasked
    omega
  rw [length_append]
  refine ⟨?_, ?_, hle⟩
  · rw [hm.offset]
    refine toUInt_of_lt ?_
    rcases ho.small with hsmall | hstart
    · have := hle hsmall
      omega
    · omega
  · rw [bytesAt_fill_append, hm.bytes]
    rw [ho.rdPtr, hm.offset]
    omega

theorem size_lt_of_bytesToRead (ho : Opened msg got) (hoffset : msg.currentOffset = got.length)
    (h : 0 < bytesToRead msg) : msg.messageSize < 2 ^ 31 := by
  rcases ho.small with hsmall | hstart
  · exact hsmall
  · rw [bytesToRead, hoffset, hstart, Nat.sub_self, Nat.sub_zero, BitVec.toInt_eq_toNat_cond,
      BitVec.toNat_ofNat, Nat.mod_eq_of_lt ho.size_lt] at h
    have := ho.size_lt
    split_ifs at h <;> omega

theorem forwarded_of_whole (hbytes : msg.is.start.bytesAt 0 got.length = got)
    (hwr : msg.is.start.wrPtr = got.length)
    (hheader : got.take headerLen = wire 4 msg.messageSize ++ [msg.messageType])
    (hlen : got.length = headerLen + msg.messageSize) :
    msg.forwarded = got ∧ ∃ body, got = frame msg.messageType body := by
  constructor
  · rw [Msg.forwarded, MessageBlock.contents, MessageBlock.length, hwr]
    exact hbytes
  · refine ⟨got.drop headerLen, ?_⟩
    rw [frame, length_drop, hlen, Nat.add_sub_cancel_left, ← singleton_append,
      ← append_assoc, ← hheader, take_append_drop]

theorem receiveBody_received (hm : Receiving host msg got) (hheader : headerLen ≤ got.length) :
    Arrived host (receiveBody (logged (scripted intMax)) msg (rs, got)).2.2
      (receiveBody (logged (scripted intMax)) msg (rs, got)).1 := by
  have ho := hm.body hheader
  have htake (bs : List UInt8) :
      (got ++ bs).take headerLen = wire 4 msg.messageSize ++ [msg.messageType] := by
    rw [take_append_of_le_length hheader, ho.header]
  rw [receiveBody]
  rcases logged_scripted_cases (sizeT (bytesToRead msg)) rs got with
    ⟨bs, hrecv, hasked, hmax⟩ | hrecv | hrecv
  · obtain ⟨hoffset, hbytes, hle⟩ := receive_more_body hm hheader hasked hmax
    rw [hrecv]
    dsimp only
    split_ifs with hnil hmore
    · exact trivial
    · have hsmall := size_lt_of_bytesToRead ho hm.offset (by omega)
      refine ⟨⟨hoffset, hbytes, hm.room, hm.swap, hm.topic⟩, fun hlt => ?_, fun _ => ?_⟩
      · rw [length_append] at hlt
        omega
      · exact ⟨ho.rdPtr, ho.wrPtr, htake bs, ho.size_lt, hle hsmall, Or.inl hsmall⟩
    · -- the assertion on the offset fails for a body whose length is negative as an `int`
      intro hwhole
      dsimp only at hwhole
      have hpos := length_pos_iff.mpr hnil
      have hlen : (got ++ bs).length = headerLen + msg.messageSize := by
        rw [hoffset, length_append] at hwhole
        rw [length_append]
        have hfive : headerLen = 5 := rfl
        have hint : intMax = 2 ^ 31 - 1 := rfl
        have hsize := ho.size_lt
        rw [toUInt] at hwhole
        rcases ho.small with hsmall | hstart <;> omega
      exact forwarded_of_whole hbytes (ho.wrPtr.trans (hwhole.symm.trans hoffset)) (htake bs) hlen
  · rw [hrecv]
    exact hm.topic
  · rw [hrecv]
    exact trivial

theorem wire_value (host : ByteOrder) {bs : List UInt8} (hbs : bs.length = 4) :
    wire 4 (host.value (swapCopy host.aceCdrByteOrder bs)) = bs := by
  have himage := host.image_value (swapCopy host.aceCdrByteOrder bs)
  rw [length_swapCopy, hbs] at himage
  rw [wire, ← swapCopy_image host, himage, swapCopy_swapCopy]

theorem openBody_received (hm : Holds host msg got) (hlen : got.length = headerLen)
    (hrd : msg.is.rdPtr = 0) (heap : ℕ → Chunk) :
    Receiving host (openBody host heap msg) got := by
  have hfive : headerLen = 5 := rfl
  have hend : headerLen ≤ msg.is.endPtr := hm.room.trans msg.is.start.dataBlock.cur_le
  obtain ⟨word, type, rfl, hword⟩ : ∃ word type, got = word ++ [type] ∧ word.length = 4 := by
    have hne : got ≠ [] := ne_nil_of_length_pos (by omega)
    exact ⟨got.dropLast, got.getLast hne, (dropLast_concat_getLast hne).symm,
      by rw [length_dropLast, hlen, hfive]⟩
  have hstarts : msg.is.Starts (word ++ [type]) := by
    refine ⟨by rw [hrd, hlen, Nat.zero_add]; exact hend, ?_⟩
    rw [hrd]
    exact hm.bytes
  have hread : msg.is.readUint host msg.messageSize =
      ⟨true, host.value (swapCopy host.aceCdrByteOrder word), msg.is.skip 4⟩ := by
    simp only [readUint, readN_spec hstarts.left hword, hm.swap]
  have htype : msg.is.start.dataBlock.mem (msg.is.rdPtr + messageTypeOffset) = type := by
    have hget := congrArg (·[4]?) hm.bytes
    simp only [MessageBlock.bytesAt, Mem.getElem?_slice, hlen] at hget
    rw [hrd, messageTypeOffset]
    simpa [headerLen, hword] using hget
  have hsize : host.value (swapCopy host.aceCdrByteOrder word) < 2 ^ 32 := by
    have hlt := host.value_lt (swapCopy host.aceCdrByteOrder word)
    rw [length_swapCopy, hword] at hlt
    exact hlt
  have hwire := wire_value host hword
  simp only [openBody, hread, htype]
  generalize host.value (swapCopy host.aceCdrByteOrder word) = n at hsize hwire
  set is := (msg.is.skip 4).grow (heap 2) (heap 3) (toUInt (headerLen + n)) with his
  -- eight bytes are always allocated behind those asked for, so `skip_bytes` does not fail
  have hskip : is.skipBytes headerLen = (true, is.skip headerLen) := by
    have hroom := le_grow_endPtr (msg.is.skip 4) (heap 2) (heap 3)
      (toUInt (headerLen + n))
    have height : maxAlignment = 8 := rfl
    refine if_pos ?_
    rw [his, grow_rdPtr]
    omega
  rw [hskip]
  refine ⟨⟨hm.offset, ?_, ?_, hm.swap, hm.topic⟩, fun hlt => absurd hlen hlt.ne, fun _ => ?_⟩
  · have hgrow := MessageBlock.bytesAt_grow (msg.is.skip 4).start (heap 2) (heap 3)
      (toUInt (headerLen + n)) (i := 0) (n := headerLen)
      (by rw [Nat.zero_add]; exact hm.room)
    rw [hlen]
    refine hgrow.trans ?_
    rw [← hlen]
    exact hm.bytes
  · have hcap := MessageBlock.grow_capacity (msg.is.skip 4).start (heap 2) (heap 3)
      (toUInt (headerLen + n))
    have height : maxAlignment = 8 := rfl
    refine le_trans ?_ hcap
    omega
  · refine ⟨?_, grow_wrPtr .., ?_, hsize, by rw [hlen]; exact Nat.le_add_right _ _,
      Or.inr hlen⟩
    · rw [skip_rdPtr, his, grow_rdPtr, Nat.zero_add]
    · rw [← hlen, take_length, hwire]

theorem receiveHeader_received (hm : Receiving host msg got) (heap : ℕ → Chunk) :
    Arrived host (receiveHeader host (logged (scripted intMax)) heap msg (rs, got)).2.2
      (receiveHeader host (logged (scripted intMax)) heap msg (rs, got)).1 := by
  rw [receiveHeader]
  split_ifs with hlt
  · rw [hm.offset] at hlt
    have hrd := hm.header hlt
    rcases logged_scripted_cases (headerLen - msg.currentOffset) rs got with
      ⟨bs, hrecv, hasked, -⟩ | hrecv | hrecv
    · rw [hm.offset] at hasked
      have hoffset : toUInt (msg.currentOffset + bs.length) = (got ++ bs).length := by
        rw [hm.offset, length_append]
        exact toUInt_of_lt (by simp only [headerLen] at *; omega)
      have hfilled : Holds host { msg with
          is := msg.is.fill (msg.is.rdPtr + msg.currentOffset) bs
          currentOffset := toUInt (msg.currentOffset + bs.length) } (got ++ bs) := by
        refine ⟨hoffset, ?_, hm.room, hm.swap, hm.topic⟩
        rw [length_append, bytesAt_fill_append, hm.bytes]
        rw [hrd, hm.offset]
      rw [hrecv]
      dsimp only
      rw [hoffset]
      rw [hoffset] at hfilled
      split_ifs with hnil hhalf hover
      · exact trivial
      · exact ⟨hfilled, fun _ => hrd, fun hge => absurd hhalf (not_lt.mpr hge)⟩
      · exact trivial
      · exact receiveBody_received (openBody_received hfilled (not_not.mp hover) hrd heap)
          (not_not.mp hover).ge
    · rw [hrecv]
      exact trivial
    · rw [hrecv]
      exact trivial
  · exact receiveBody_received hm (hm.offset ▸ not_lt.mp hlt)

theorem receive_received (rs : ℕ → Recv) (hm : Receiving host msg got) (heap : ℕ → Chunk) :
    Arrived host (receive host (logged (scripted intMax)) heap msg (rs, got)).2.2
      (receive host (logged (scripted intMax)) heap msg (rs, got)).1 := by
  refine receiveHeader_received ?_ heap
  rw [makeRoom]
  split_ifs with hzero
  · have hnil : got = [] := length_eq_zero_iff.mp (hm.offset.symm.trans hzero)
    subst hnil
    have hcap := MessageBlock.grow_capacity msg.is.start (heap 0) (heap 1) headerLen
    exact ⟨⟨hm.offset, rfl, le_of_add_le_left hcap, hm.swap, hm.topic⟩,
      fun _ => grow_rdPtr .., fun hge => absurd hge (by decide)⟩
  · exact hm

section Logged

variable {σ : Type} (recv : ℕ → σ → Recv × σ)

theorem receiveBody_logged (msg : Msg) (s : σ) (got : List UInt8) :
    ∃ got', receiveBody (logged recv) msg (s, got) =
      ((receiveBody recv msg s).1, ((receiveBody recv msg s).2, got')) := by
  simp only [receiveBody, logged]
  rcases recv (sizeT (bytesToRead msg)) s with ⟨_ | _ | _, s'⟩
  · dsimp only
    split_ifs <;> exact ⟨_, rfl⟩
  · exact ⟨_, rfl⟩
  · exact ⟨_, rfl⟩

theorem receiveHeader_logged (host : ByteOrder) (heap : ℕ → Chunk) (msg : Msg) (s : σ)
    (got : List UInt8) :
    ∃ got', receiveHeader host (logged recv) heap msg (s, got) =
      ((receiveHeader host recv heap msg s).1, ((receiveHeader host recv heap msg s).2, got')) := by
  simp only [receiveHeader]
  split_ifs
  · rcases hrecv : recv (headerLen - msg.currentOffset) s with ⟨bs | _ | _, s'⟩
    · simp only [logged, hrecv]
      split_ifs
      · exact ⟨_, rfl⟩
      · exact ⟨_, rfl⟩
      · exact ⟨_, rfl⟩
      · exact receiveBody_logged recv _ s' _
    · simp only [logged, hrecv]
      exact ⟨_, rfl⟩
    · simp only [logged, hrecv]
      exact ⟨_, rfl⟩
  · exact receiveBody_logged recv msg s got

theorem receive_logged (host : ByteOrder) (heap : ℕ → Chunk) (msg : Msg) (s : σ)
    (got : List UInt8) :
    (receive host (logged recv) heap msg (s, got)).1 = (receive host recv heap msg s).1 := by
  obtain ⟨got', hlogged⟩ := receiveHeader_logged recv host heap (makeRoom heap msg) s got
  rw [receive, receive, hlogged]

end Logged

theorem decode_forwarded (host : ByteOrder) (junk : ℕ) (msg : Msg) :
    (decode host junk msg).forwarded = msg.forwarded := by
  simp only [decode, Msg.forwarded]
  split_ifs <;>
    simp only [readString_eq, readInt, readWord_eq,
      readBoolean_eq, Reading.ofRun, run_fetch_start]

end MsgProtocol

def HoldsSome (host : ByteOrder) : Option Msg → List UInt8 → Prop
  | none, got => got = []
  | some msg, got => Receiving host msg got

namespace Broker

variable {cfg : Config} {env : Answers} {b b' : Broker} {h : HandlerPtr} {msg : Msg}

def arrived (cfg : Config) (env : Answers) (tmpMsg : Option Msg) (got : List UInt8) : List UInt8 :=
  (MsgProtocol.receive cfg.host (logged (scripted intMax)) env.heap (currentMsg cfg env tmpMsg)
    (env.recvs, got)).2.2

theorem currentMsg_receiving (env : Answers) {tmpMsg : Option Msg} {got : List UInt8}
    (hm : HoldsSome cfg.host tmpMsg got) : Receiving cfg.host (currentMsg cfg env tmpMsg) got := by
  cases tmpMsg with
  | none =>
    obtain rfl : got = [] := hm
    have hroom : headerLen ≤ defaultBufsize := by decide
    exact ⟨⟨rfl, rfl, hroom, rfl, rfl⟩, fun _ => rfl, fun hge => absurd hge (by decide)⟩
  | some msg => exact hm

theorem parseInput_received {tmpMsg : Option Msg} {got : List UInt8} {result : ParseResult}
    (hm : HoldsSome cfg.host tmpMsg got) (hparse : parseInput cfg env tmpMsg = .ok (result, msg)) :
    (result = .half → Receiving cfg.host msg (arrived cfg env tmpMsg got)) ∧
      (result = .complete → msg.topic ≠ [] → msg.forwarded = arrived cfg env tmpMsg got ∧
        ∃ body, arrived cfg env tmpMsg got = frame msg.messageType body) := by
  have harrived := MsgProtocol.receive_received env.recvs (currentMsg_receiving env hm) env.heap
  rw [MsgProtocol.receive_logged] at harrived
  change MsgProtocol.Arrived cfg.host (arrived cfg env tmpMsg got) _ at harrived
  obtain ⟨⟨r, s⟩, hparse, hr⟩ := bind_eq_ok.mp hparse
  cases hr
  rw [MsgProtocol.parse] at hparse
  rcases hreceive : MsgProtocol.receive cfg.host (scripted intMax) env.heap
    (currentMsg cfg env tmpMsg) env.recvs with ⟨⟨_ | _ | _ | _ | _, msg'⟩, s'⟩
  all_goals
    rw [hreceive] at hparse harrived
  · obtain ⟨⟨rfl, rfl⟩, -⟩ := Prod.mk.inj (Except.ok.inj hparse) |>.imp_left Prod.mk.inj
    exact ⟨by simp, by simp⟩
  · obtain ⟨⟨rfl, rfl⟩, -⟩ := Prod.mk.inj (Except.ok.inj hparse) |>.imp_left Prod.mk.inj
    exact ⟨fun _ => harrived, by simp⟩
  · obtain ⟨⟨rfl, rfl⟩, -⟩ := Prod.mk.inj (Except.ok.inj hparse) |>.imp_left Prod.mk.inj
    exact ⟨by simp, fun _ htopic => absurd harrived htopic⟩
  · obtain ⟨⟨⟩, hoffset, hparse⟩ := bind_eq_ok.mp hparse
    obtain ⟨-, -, hparse⟩ := bind_eq_ok.mp hparse
    obtain ⟨⟨rfl, rfl⟩, -⟩ := Prod.mk.inj (Except.ok.inj hparse) |>.imp_left Prod.mk.inj
    refine ⟨by simp, fun _ _ => ?_⟩
    rw [MsgProtocol.decode_forwarded, (decode_spec cfg.host env.junk msg').1]
    exact harrived (require_eq_ok.mp hoffset)
  · cases hparse

def publisherMsg (b : Broker) (h : HandlerPtr) : Option (MsgPtr × Msg) :=
  (b.publisherHandlers h).bind PublisherHandler.msg

section Publishers

variable {sh : SubscriberHandler} {ok : Bool}

theorem addMessageTo_publishers_ {e : Event} {ids : List ClientId}
    (hrun : addMessageTo_ e ids b = .ok b') : b'.publisherHandlers = b.publisherHandlers := by
  refine addMessageTo_.invariant (I := fun b' => b'.publisherHandlers = b.publisherHandlers) ?_ ?_
    hrun rfl
  · intro b₁ _ h _ hsame
    rw [registerWriteMask_publisherHandlers, hsame]
  · intro b₁ _ hsame
    exact hsame

theorem addMessageTo_publishers (now : ℤ) (e : Event) (hs : List HandlerPtr) (b : Broker) :
    (addMessageTo cfg now e hs b).publisherHandlers = b.publisherHandlers := by
  refine addMessageTo.invariant (I := fun b' => b'.publisherHandlers = b.publisherHandlers) ?_ ?_
    cfg now hs rfl
  · intro b₁ h hsame
    rw [registerWriteMask_publisherHandlers, hsame]
  · intro b₁ h hsame
    exact hsame

theorem onPublisherMessage_publishers {ptr : MsgPtr}
    (hrun : onPublisherMessage cfg env b ptr msg = .ok (ok, b')) :
    b'.publisherHandlers = b.publisherHandlers := by
  rcases onPublisherMessage_cases hrun with ⟨-, rfl⟩ | ⟨-, -, ⟨-, hadd⟩ | ⟨-, rfl⟩⟩
  · rfl
  · have hsame := addMessageTo_publishers_ hadd
    exact hsame
  · exact addMessageTo_publishers ..

theorem onSubscriberMessage_publishers
    (hrun : onSubscriberMessage cfg env b h sh msg = .ok (ok, b')) :
    b'.publisherHandlers = b.publisherHandlers := by
  rcases onSubscriberMessage_cases hrun with ⟨-, hsubscribe⟩ | ⟨-, rfl⟩ | ⟨-, hunSubscribe⟩
  · obtain ⟨⟨id, tm⟩, -, hrun⟩ := bind_eq_ok.mp hsubscribe
    obtain ⟨⟨ok', bytes⟩, -, hrun⟩ := bind_eq_ok.mp hrun
    cases hrun
    split_ifs
    · exact registerWriteMask_publisherHandlers _ h
    · rfl
  · rfl
  · obtain ⟨-, -, hrun⟩ := bind_eq_ok.mp hunSubscribe
    obtain ⟨⟨ok', bytes⟩, -, hrun⟩ := bind_eq_ok.mp hrun
    cases hrun
    rfl

theorem subscriberInput_publishers (hrun : subscriberInput cfg env b h sh = .ok (ok, b')) :
    b'.publisherHandlers = b.publisherHandlers := by
  rcases subscriberInput_cases hrun with ⟨result, msg, tmpMsg, -, -, rfl⟩ | ⟨msg, -, hmsg⟩
  · rfl
  · have hsame := onSubscriberMessage_publishers hmsg
    exact hsame

theorem closeSubscriber_publishers (hrun : closeSubscriber cfg h (ok, b) = .ok b') :
    b'.publisherHandlers = b.publisherHandlers := by
  rcases closeSubscriber_cases hrun with ⟨rfl, -⟩ | ⟨tm, -, -, rfl⟩ <;> rfl

theorem publisherMsg_setPublisher {r : Option PublisherHandler}
    (hr : r.bind PublisherHandler.msg = b.publisherMsg h) :
    (b.setPublisher h r).publisherMsg = b.publisherMsg := by
  funext p
  by_cases hp : p = h
  · subst hp
    rw [publisherMsg, setPublisher_self, hr]
  · rw [publisherMsg, setPublisher_of_ne _ hp, publisherMsg]

theorem closePublisher_publisherMsg (hrun : closePublisher h (ok, b) = .ok b') :
    b'.publisherMsg = b.publisherMsg := by
  rcases closePublisher_cases hrun with rfl | ⟨ph, hph, hmsg, rfl⟩
  · rfl
  · refine publisherMsg_setPublisher ?_
    rw [publisherMsg, hph]
    exact hmsg.symm

theorem topic_ne_of_onPublisherMessage {ptr : MsgPtr}
    (hrun : onPublisherMessage cfg env b ptr msg = .ok (ok, b'))
    (htype : msg.messageType = MsgType.event.toOctet) : msg.topic ≠ [] := by
  rcases onPublisherMessage_cases hrun with ⟨hother, -⟩ | ⟨-, htopic, -⟩
  · exact absurd htype hother
  · exact htopic

theorem step_publisherMsg {u : Upcall} (hrun : step cfg b u = .ok b') :
    b'.publisherMsg = b.publisherMsg ∧ published cfg b u = none ∧
      (∀ h env, u = .publisherReadable h env → b.publisherMsg h = none) ∨
    ∃ h env ph result msg, u = .publisherReadable h env ∧ b.publisherHandlers h = some ph ∧
      parseInput cfg env (ph.msg.map Prod.snd) = .ok (result, msg) ∧
      (result = .complete → msg.messageType = MsgType.event.toOctet → msg.topic ≠ []) ∧
      b'.publisherMsg h = (if result = .half then some (currentPtr env ph, msg) else none) ∧
      ∀ p ≠ h, b'.publisherMsg p = b.publisherMsg p := by
  have hsame (hpublishers : b'.publisherHandlers = b.publisherHandlers) :
      b'.publisherMsg = b.publisherMsg := by
    funext p
    rw [publisherMsg, hpublishers, publisherMsg]
  cases dispatched_of_step hrun with
  | ignored hu =>
    refine Or.inl ⟨rfl, published_of_ignored hu, fun h env heq => ?_⟩
    subst heq
    rw [publisherMsg, show b.publisherHandlers h = none from hu]
    rfl
  | acceptSubscriber => exact Or.inl ⟨rfl, rfl, nofun⟩
  | acceptPublisher hfree =>
    refine Or.inl ⟨publisherMsg_setPublisher ?_, rfl, nofun⟩
    rw [publisherMsg, Option.isNone_iff_eq_none.mp hfree.2]
    rfl
  | subscriberReadable _ hinput hclose =>
    exact Or.inl ⟨hsame ((closeSubscriber_publishers hclose).trans
      (subscriberInput_publishers hinput)), rfl, nofun⟩
  | subscriberWritable _ _ houtput hclose =>
    obtain ⟨messages, -, houtput⟩ := bind_eq_ok.mp houtput
    obtain ⟨⟨ok₁, b₁⟩, hsend, houtput⟩ := bind_eq_ok.mp houtput
    cases houtput
    obtain ⟨pubs_, pubs, sent, rfl⟩ := sendMessages_eq hsend
    have hclose := closeSubscriber_publishers hclose
    exact Or.inl ⟨hsame hclose, rfl, nofun⟩
  | @publisherReadable h env ph ok b₁ b' hph hinput hclose =>
    obtain ⟨⟨result, msg⟩, hparse, hinput⟩ := bind_eq_ok.mp hinput
    right
    refine ⟨h, env, ph, result, msg, rfl, hph, hparse, ?_⟩
    rw [closePublisher_publisherMsg hclose]
    have hset (m : Option (MsgPtr × Msg))
        (hb₁ : b₁.publisherHandlers = (b.setPublisher h (some ⟨m⟩)).publisherHandlers) :
        b₁.publisherMsg h = m ∧ ∀ p ≠ h, b₁.publisherMsg p = b.publisherMsg p := by
      refine ⟨?_, fun p hp => ?_⟩
      · rw [publisherMsg, hb₁, setPublisher_self]
        rfl
      · rw [publisherMsg, hb₁, setPublisher_of_ne _ hp, publisherMsg]
    cases result with
    | error =>
      cases hinput
      exact ⟨nofun, hset none rfl⟩
    | half =>
      cases hinput
      exact ⟨nofun, hset (some (currentPtr env ph, msg)) rfl⟩
    | complete =>
      exact ⟨fun _ => topic_ne_of_onPublisherMessage hinput,
        hset none (onPublisherMessage_publishers hinput)⟩

end Publishers

end Broker

/-- The broker, the bytes that have arrived of the message of each publisher, and the frames of the
events, in the order in which they were published. -/
structure Relayed where
  broker : Broker
  incoming : HandlerPtr → List UInt8
  frames : List (List UInt8)

namespace Relayed

def arrivedAt (cfg : Config) (r : Relayed) : Upcall → List UInt8
  | .publisherReadable h env =>
    Broker.arrived cfg env ((r.broker.publisherMsg h).map Prod.snd) (r.incoming h)
  | _ => []

def incomingAfter (cfg : Config) (r : Relayed) (u : Upcall) (b : Broker) :
    HandlerPtr → List UInt8 :=
  match u with
  | .publisherReadable h _ =>
    Function.update r.incoming h (if (b.publisherMsg h).isSome then r.arrivedAt cfg u else [])
  | _ => r.incoming

def step (cfg : Config) (r : Relayed) (u : Upcall) : Except Assertion Relayed :=
  (Broker.step cfg r.broker u).map fun b => ⟨b, r.incomingAfter cfg u b,
    r.frames ++ ((Broker.published cfg r.broker u).map fun _ => r.arrivedAt cfg u).toList⟩

def start (subscriptionMap : AList fun _ : Topic => List ClientId) (nextAllocateClientId : ℕ) :
    Relayed :=
  ⟨Broker.start subscriptionMap nextAllocateClientId, fun _ => [], []⟩

structure Faithful (cfg : Config) (r : Relayed) : Prop where
  incoming : ∀ h, HoldsSome cfg.host ((r.broker.publisherMsg h).map Prod.snd) (r.incoming h)
  length : r.frames.length = r.broker.received
  frames : ∀ bytes ∈ r.frames, ∃ body, bytes = frame MsgType.event.toOctet body
  pending : ∀ h id, ∀ e ∈ pending cfg r.broker h id,
    r.frames[e.serial]? = some e.msg.forwarded
  sent : ∀ s ∈ r.broker.sent, ∃ bytes room, r.frames[s.serial]? = some bytes ∧
    s.bytes = bytes.take room

namespace Faithful

variable {cfg : Config} {r r' : Relayed} {u : Upcall} {b' : Broker}

theorem start (cfg : Config) (subscriptionMap : AList fun _ : Topic => List ClientId)
    (nextAllocateClientId : ℕ) :
    (Relayed.start subscriptionMap nextAllocateClientId).Faithful cfg where
  incoming _ := rfl
  length := rfl
  frames := forall_mem_nil _
  pending h id := by
    rw [Broker.pending]
    split_ifs <;> exact forall_mem_nil _
  sent := forall_mem_nil _

section

variable (hr : r.Faithful cfg) (hstep : Broker.step cfg r.broker u = .ok b')
include hr hstep

theorem incoming_step (h : HandlerPtr) :
    HoldsSome cfg.host ((b'.publisherMsg h).map Prod.snd) (r.incomingAfter cfg u b' h) := by
  rcases Broker.step_publisherMsg hstep with ⟨hsame, -, hnone⟩ |
    ⟨p, env, ph, result, msg, rfl, hph, hparse, -, hmsg, hother⟩
  · have hafter : r.incomingAfter cfg u b' h = r.incoming h := by
      cases u with
      | publisherReadable p env =>
        by_cases hp : h = p
        · have hmsg := hnone p env rfl
          have hold := hr.incoming h
          subst hp
          rw [hmsg] at hold
          simp only [incomingAfter, Function.update_self, hsame, hmsg]
          exact hold.symm
        · exact Function.update_of_ne hp ..
      | _ => rfl
    rw [hafter, hsame]
    exact hr.incoming h
  · by_cases hp : h = p
    · subst hp
      have hold := hr.incoming h
      rw [publisherMsg, hph] at hold
      have hparsed := (parseInput_received hold hparse).1
      simp only [incomingAfter, Function.update_self, hmsg]
      by_cases hhalf : result = .half
      · simp only [hhalf, ↓reduceIte, Option.isSome_some, Option.map_some, arrivedAt,
          publisherMsg, hph]
        exact hparsed hhalf
      · simp only [hhalf, ↓reduceIte]
        rfl
    · rw [hother h hp, incomingAfter]
      simp only [Function.update_of_ne hp]
      exact hr.incoming h

theorem published_step
    {ptr : MsgPtr} {msg : Msg} (hsome : Broker.published cfg r.broker u = some (ptr, msg)) :
    msg.forwarded = r.arrivedAt cfg u ∧
      ∃ body, r.arrivedAt cfg u = frame MsgType.event.toOctet body := by
  rcases Broker.step_publisherMsg hstep with ⟨-, hnone, -⟩ |
    ⟨p, env, ph, result, msg', rfl, hph, hparse, htopic, -, -⟩
  · rw [hnone] at hsome
    cases hsome
  · have hold := hr.incoming p
    rw [publisherMsg, hph] at hold
    rw [published, hph] at hsome
    cases result with
    | complete =>
      simp only [hparse] at hsome
      split_ifs at hsome with htype
      cases hsome
      have hparsed := (parseInput_received hold hparse).2 rfl (htopic rfl htype)
      rw [htype] at hparsed
      simp only [arrivedAt, publisherMsg, hph]
      exact hparsed
    | _ =>
      simp only [hparse] at hsome
      cases hsome

end

theorem step (hr : r.Faithful cfg) (hrun : r.step cfg u = .ok r') : r'.Faithful cfg := by
  obtain ⟨b', hstep, rfl⟩ := map_eq_ok.mp hrun
  have hkeep (n : ℕ) (bytes : List UInt8) (hn : r.frames[n]? = some bytes)
      (new : List (List UInt8)) :
      (r.frames ++ new)[n]? = some bytes := by
    rw [List.getElem?_append_left (List.getElem?_eq_some_iff.mp hn).1, hn]
  refine ⟨hr.incoming_step hstep, ?_, ?_, fun h id e he => ?_, fun s hs => ?_⟩
  · rw [length_append, hr.length, received_of_step hstep, Option.toList_map,
      length_map]
  · refine forall_mem_append.mpr ⟨hr.frames, fun bytes hbytes => ?_⟩
    obtain ⟨⟨ptr, msg⟩, hsome, rfl⟩ := Option.map_eq_some_iff.mp (Option.mem_toList.mp hbytes)
    exact (hr.published_step hstep hsome).2
  · rcases Broker.mem_pending_of_step hstep he with hold | ⟨ptr, msg, hsome, rfl, -⟩
    · exact hkeep _ _ (hr.pending h id e hold) _
    · rw [hsome, (hr.published_step hstep hsome).1, ← hr.length]
      exact getElem?_concat_length
  · rcases mem_sent_of_step hstep hs with hold | ⟨h, sh, hsh, e, he, room, rfl⟩
    · obtain ⟨bytes, room, hbytes, hroom⟩ := hr.sent s hold
      exact ⟨bytes, room, hkeep _ _ hbytes _, hroom⟩
    · exact ⟨e.msg.forwarded, room, hkeep _ _ (hr.pending h sh.id e he) _, rfl⟩

end Faithful

/-- **Events are sent on as they were received.** -/
theorem forwarded_as_received (cfg : Config)
    (subscriptionMap : AList fun _ : Topic => List ClientId) (nextAllocateClientId : ℕ)
    (us : List Upcall) (r : Relayed)
    (hrun : runSteps (step cfg) (start subscriptionMap nextAllocateClientId) us = .ok r) :
    (∀ bytes ∈ r.frames, ∃ body : List UInt8,
      bytes = wire 4 body.length ++ [MsgType.event.toOctet] ++ body) ∧
    (∀ h id, ∀ e ∈ pending cfg r.broker h id,
      r.frames[e.serial]? = some e.msg.forwarded) ∧
    ∀ s ∈ r.broker.sent, ∃ bytes room, r.frames[s.serial]? = some bytes ∧
      s.bytes = bytes.take room := by
  have hfaithful : r.Faithful cfg := by
    exact runSteps_invariant (C := fun _ _ => True) (fun _ _ _ hr _ hstep => hr.step hstep)
      (Faithful.start ..) (eachStep_of_forall_mem (fun _ _ _ => trivial) _) hrun
  refine ⟨fun bytes hbytes => ?_, hfaithful.pending, hfaithful.sent⟩
  obtain ⟨body, rfl⟩ := hfaithful.frames bytes hbytes
  exact ⟨body, by rw [frame, append_assoc]; rfl⟩

def part (ptr : MsgPtr) (first second : List UInt8) : Upcall :=
  .publisherReadable 2 { frameAnswers ptr .event [] with
    recvs := fun i => .bytes (if i = 0 then first else second) }

theorem forwarded_as_received_parts :
    ∃ r, runSteps (step plainConfig) (start ∅ 1)
        (subscribed ++ [part 100 [0, 0] [], part 0 [0, 8, 4] [0, 0, 0],
          part 0 [2, 116, 0, 9, 9] [], writable]) = .ok r ∧
      r.frames = [[0, 0, 0, 8, 4, 0, 0, 0, 2, 116, 0, 9, 9]] ∧
      ∀ s ∈ r.broker.sent, ∃ bytes room, r.frames[s.serial]? = some bytes ∧
        s.bytes = bytes.take room := by
  have hframes : (runSteps (step plainConfig) (start ∅ 1)
      (subscribed ++ [part 100 [0, 0] [], part 0 [0, 8, 4] [0, 0, 0],
        part 0 [2, 116, 0, 9, 9] [], Broker.writable])).map Relayed.frames =
      .ok [[0, 0, 0, 8, 4, 0, 0, 0, 2, 116, 0, 9, 9]] := by decide +kernel
  obtain ⟨r, hrun, hr⟩ := map_eq_ok.mp hframes
  exact ⟨r, hrun, hr, (forwarded_as_received plainConfig ∅ 1 _ r hrun).2.2⟩

end Relayed

end Icm.Messaging
